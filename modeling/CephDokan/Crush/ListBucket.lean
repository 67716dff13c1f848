import CephDokan.Common.Buffer
import CephDokan.Lib.Trace

/-!
# List buckets

A list bucket of CRUSH has the weight of each item and, beside it, the sum of the weights up to
it. Adding, removing and adjusting an item shift the sums; `crush_reweight_list_bucket` takes the
weights of the child buckets and leaves the sums as they are.
-/

namespace CephDokan.Crush

/-- A position of the arrays `items`, `item_weights` and `sum_weights`. -/
structure ListSlot where
  item : ℤ
  weight : ℕ
  sum : ℕ
  deriving DecidableEq

/-- `crush_bucket_list` -/
structure ListBucket where
  slots : List ListSlot
  weight : ℕ
  deriving DecidableEq

/-- `crush_addition_is_unsafe` -/
def additionIsUnsafe (a b : ℕ) : Bool := 2 ^ 32 - 1 - b < a

/-- `a - b` in `__u32` -/
def sub32 (a b : ℕ) : ℕ := u32 (a + 2 ^ 32 - b)

namespace ListSlot

/-- The sum of a slot with `d` added -/
def shift (d : ℕ) (s : ListSlot) : ListSlot := { s with sum := u32 (s.sum + d) }

/-- The loop of `crush_make_list_bucket`, with the sum so far. -/
def make : ℕ → List (ℤ × ℕ) → Option (List ListSlot × ℕ)
  | w, [] => some ([], w)
  | w, (item, weight) :: rest =>
    if additionIsUnsafe w (u32 weight) then none
    else (make (u32 (w + weight)) rest).map fun r =>
      (⟨item, u32 weight, u32 (w + weight)⟩ :: r.1, r.2)

/-- The slots without the first one of the item, and its weight. -/
def remove (item : ℤ) : List ListSlot → Option (ℕ × List ListSlot)
  | [] => none
  | s :: l =>
    if s.item = item then some (s.weight, l.map (shift (sub32 0 s.weight)))
    else (remove item l).map fun r => (r.1, s :: r.2)

/-- The slots with a new weight in the first one of the item, and the difference. -/
def adjust (item : ℤ) (weight : ℕ) : List ListSlot → Option (ℕ × List ListSlot)
  | [] => none
  | s :: l =>
    let diff := sub32 weight s.weight
    if s.item = item then some (diff, { s with weight }.shift diff :: l.map (shift diff))
    else (adjust item weight l).map fun r => (r.1, s :: r.2)

/-- The weight of a child bucket is the one that its own call has left it with. -/
def renew (child : ℤ → ℕ) (s : ListSlot) : ListSlot :=
  if s.item < 0 then { s with weight := u32 (child s.item) } else s

/-- The loop of `crush_reweight_list_bucket`, with the weight of the bucket so far. -/
def reweight (child : ℤ → ℕ) : ℕ → List ListSlot → Option (List ListSlot × ℕ)
  | w, [] => some ([], w)
  | w, s :: l =>
    let s := s.renew child
    if additionIsUnsafe w s.weight then none
    else (reweight child (u32 (w + s.weight)) l).map fun r => (s :: r.1, r.2)

def total (l : List ListSlot) : ℕ := (l.map weight).sum

def Summed : ℕ → List ListSlot → Prop
  | _, [] => True
  | acc, s :: l => s.sum = acc + s.weight ∧ Summed s.sum l

end ListSlot

open ListSlot

inductive ListOp
  | add (item : ℤ) (weight : ℕ)
  | remove (item : ℤ)
  | adjustWeight (item : ℤ) (weight : ℕ)
  | reweight (child : ℤ → ℕ)

namespace ListBucket

/-- `crush_make_list_bucket` -/
def make (items : List (ℤ × ℕ)) : Option ListBucket :=
  (ListSlot.make 0 items).map fun r => ⟨r.1, r.2⟩

/-- `crush_add_list_bucket_item` -/
def add (b : ListBucket) (item : ℤ) (weight : ℕ) : Option ListBucket :=
  let weight := u32 weight
  let sum := b.slots.getLast?.elim 0 ListSlot.sum
  if b.slots ≠ [] ∧ additionIsUnsafe sum weight then none
  else some ⟨b.slots ++ [⟨item, weight, u32 (sum + weight)⟩], u32 (b.weight + weight)⟩

/-- The operations that return success, and the bucket they leave. -/
def exec (b : ListBucket) : ListOp → Option ListBucket
  | .add item weight => b.add item weight
  | .remove item => (ListSlot.remove item b.slots).map fun r =>
      ⟨r.2, if r.1 < b.weight then b.weight - r.1 else 0⟩
  | .adjustWeight item weight =>
    match ListSlot.adjust item (u32 weight) b.slots with
    | some r => some ⟨r.2, u32 (b.weight + r.1)⟩
    | none => some b
  | .reweight child => (ListSlot.reweight child 0 b.slots).map fun r => ⟨r.1, r.2⟩

def SumsKept (b : ListBucket) : Prop :=
  (∀ i s, b.slots[i]? = some s → s.sum = total (b.slots.take (i + 1))) ∧ b.weight = total b.slots

def Settled (b : ListBucket) (child : ℤ → ℕ) : Prop :=
  ∀ s ∈ b.slots, s.item < 0 → u32 (child s.item) = s.weight

/-- An operation that leaves a total below `2 ^ 32`, a reweight with no news from a child. -/
structure Step (op : ListOp) (b b' : ListBucket) : Prop where
  run : b.exec op = some b'
  total_lt : total b'.slots < 2 ^ 32
  settled : ∀ child, op = .reweight child → b.Settled child

end ListBucket

namespace ListSlot

variable {l l' : List ListSlot} {acc w d : ℕ} {item : ℤ}

theorem total_cons (s : ListSlot) (l : List ListSlot) : total (s :: l) = s.weight + total l := rfl

theorem summed_iff :
    Summed acc l ↔ ∀ i s, l[i]? = some s → s.sum = acc + total (l.take (i + 1)) := by
  induction l generalizing acc with
  | nil => simp [Summed]
  | cons s l ih =>
    rw [Summed, ih]
    constructor
    · rintro ⟨hs, hl⟩ i t hi
      cases i with
      | zero => simp_all [total]
      | succ i =>
        have := hl i t (by simpa using hi)
        rw [List.take_succ_cons, total_cons]
        omega
    · intro h
      have hs : s.sum = acc + s.weight := h 0 s rfl
      refine ⟨hs, fun i t hi => ?_⟩
      have := h (i + 1) t (by simpa using hi)
      rw [List.take_succ_cons, total_cons] at this
      omega

theorem Summed.map_shift (h : Summed acc l) (hw : w = u32 (acc + d)) (hlt : w + total l < 2 ^ 32) :
    Summed w (l.map (shift d)) := by
  induction l generalizing acc w with
  | nil => trivial
  | cons s l ih =>
    rw [total_cons] at hlt
    obtain ⟨hs, hl⟩ := h
    refine ⟨?_, ih hl ?_ ?_⟩ <;> simp only [shift, u32] at * <;> omega

theorem total_map_shift (l : List ListSlot) : total (l.map (shift d)) = total l := by
  induction l with
  | nil => rfl
  | cons s l ih => rw [List.map_cons, total_cons, total_cons, ih]; rfl

theorem make_spec {items} (hw : w < 2 ^ 32) (h : make w items = some (l, d)) :
    Summed w l ∧ d = w + total l ∧ d < 2 ^ 32 := by
  induction items generalizing w l with
  | nil =>
    cases h
    exact ⟨trivial, rfl, hw⟩
  | cons e items ih =>
    rw [make] at h
    split_ifs at h with hsafe
    obtain ⟨r, hr, h⟩ := Option.map_eq_some_iff.mp h
    cases h
    simp only [additionIsUnsafe, decide_eq_true_eq, not_lt] at hsafe
    have hsum : u32 (w + e.2) = w + u32 e.2 := by
      unfold u32 at *
      omega
    obtain ⟨hl, hd, hlt⟩ := ih (by unfold u32; omega) hr
    exact ⟨⟨hsum, hsum ▸ hl⟩, by rw [total_cons]; simp only; omega, hlt⟩

section

variable (h : Summed acc l)

include h

theorem Summed.append (item : ℤ) (hlt : d = acc + total l + w) :
    Summed acc (l ++ [⟨item, w, d⟩]) := by
  induction l generalizing acc with
  | nil => exact ⟨hlt, trivial⟩
  | cons s l ih =>
    obtain ⟨hs, hl⟩ := h
    refine ⟨hs, ih hl ?_⟩
    rw [hlt, total_cons, hs]
    omega

theorem Summed.getLast : l.getLast?.elim acc sum = acc + total l := by
  induction l generalizing acc with
  | nil => rfl
  | cons s l ih =>
    rw [total_cons, ← add_assoc, ← h.1, ← ih h.2]
    cases l with
    | nil => rfl
    | cons t l =>
      rfl

theorem remove_spec (hlt : acc + total l < 2 ^ 32) (hrun : remove item l = some (w, l')) :
    Summed acc l' ∧ total l = w + total l' := by
  induction l generalizing acc l' with
  | nil => cases hrun
  | cons s l ih =>
    rw [total_cons] at hlt ⊢
    obtain ⟨hs, hl⟩ := h
    rw [remove] at hrun
    split_ifs at hrun with hitem
    · cases hrun
      refine ⟨hl.map_shift ?_ (by omega), by rw [total_map_shift]⟩
      simp only [sub32, u32]
      omega
    · obtain ⟨r, hr, hrun⟩ := Option.map_eq_some_iff.mp hrun
      cases hrun
      obtain ⟨hsum, htotal⟩ := ih hl (by omega) hr
      exact ⟨⟨hs, hsum⟩, by rw [total_cons]; omega⟩

theorem adjust_spec {weight} (hlt : acc + total l < 2 ^ 32)
    (hrun : adjust item weight l = some (d, l')) (hlt' : acc + total l' < 2 ^ 32) :
    Summed acc l' ∧ u32 (total l + d) = u32 (total l') := by
  induction l generalizing acc l' with
  | nil => cases hrun
  | cons s l ih =>
    rw [total_cons] at hlt ⊢
    obtain ⟨hs, hl⟩ := h
    rw [adjust] at hrun
    split_ifs at hrun with hitem
    · cases hrun
      rw [total_cons, total_map_shift] at hlt' ⊢
      simp only [shift] at hlt'
      have hsum : u32 (s.sum + sub32 weight s.weight) = acc + weight := by
        simp only [sub32, u32]
        omega
      refine ⟨⟨hsum, hl.map_shift rfl ?_⟩, ?_⟩
      · exact (Nat.add_le_add_right hsum.le _).trans_lt (by omega)
      · simp only [sub32, u32, shift]
        omega
    · obtain ⟨r, hr, hrun⟩ := Option.map_eq_some_iff.mp hrun
      cases hrun
      rw [total_cons] at hlt' ⊢
      obtain ⟨hsum, htotal⟩ := ih hl (by omega) hr (by omega)
      refine ⟨⟨hs, hsum⟩, ?_⟩
      unfold u32 at *
      omega

end

variable {child : ℤ → ℕ}

theorem reweight_spec (hw : w < 2 ^ 32) (hlt : total l < 2 ^ 32)
    (h : reweight child w l = some (l', d)) : l' = l.map (renew child) ∧ d = w + total l' := by
  induction l generalizing w l' with
  | nil =>
    cases h
    exact ⟨rfl, rfl⟩
  | cons s l ih =>
    rw [reweight] at h
    split_ifs at h with hsafe
    obtain ⟨r, hr, h⟩ := Option.map_eq_some_iff.mp h
    cases h
    simp only [additionIsUnsafe, decide_eq_true_eq, not_lt] at hsafe
    rw [total_cons] at hlt
    have hweight : (s.renew child).weight < 2 ^ 32 := by
      unfold renew
      split_ifs
      · exact Nat.mod_lt _ (by omega)
      · omega
    have hsum : u32 (w + (s.renew child).weight) = w + (s.renew child).weight :=
      u32_of_lt (by omega)
    obtain ⟨hl, hd⟩ := ih (by rw [hsum]; omega) (by omega) hr
    exact ⟨by rw [hl]; rfl, by rw [total_cons]; omega⟩

theorem Summed.renew_iff (h : Summed acc l) : Summed acc (l.map (renew child)) ↔
    ∀ s ∈ l, s.item < 0 → u32 (child s.item) = s.weight := by
  induction l generalizing acc with
  | nil => simp [Summed]
  | cons s l ih =>
    obtain ⟨hs, hl⟩ := h
    rw [List.forall_mem_cons, ← ih hl, List.map_cons, Summed]
    unfold renew
    split_ifs with hitem <;> simp [hs, hitem, eq_comm]

end ListSlot

namespace ListBucket

variable {b b' : ListBucket} {op : ListOp}

theorem sumsKept_iff : b.SumsKept ↔ Summed 0 b.slots ∧ b.weight = total b.slots := by
  rw [SumsKept, summed_iff]
  simp

theorem reweight_sumsKept_iff {child} (h : b.SumsKept) (hlt : total b.slots < 2 ^ 32)
    (hrun : b.exec (.reweight child) = some b') : b'.SumsKept ↔ b.Settled child := by
  obtain ⟨r, hr, rfl⟩ := Option.map_eq_some_iff.mp hrun
  obtain ⟨hl, hw⟩ := reweight_spec (by omega) hlt hr
  rw [sumsKept_iff, hw, hl, Settled, ← (sumsKept_iff.mp h).1.renew_iff]
  simp

theorem Step.sumsKept (h : Step op b b') (hb : b.SumsKept) (hlt : total b.slots < 2 ^ 32) :
    b'.SumsKept := by
  obtain ⟨hrun, hlt', hsettled⟩ := h
  obtain ⟨hsum, hw⟩ := sumsKept_iff.mp hb
  cases op with
  | add item weight =>
    simp only [exec, add] at hrun
    split_ifs at hrun with hsafe
    cases hrun
    have htotal : ∀ s, total (b.slots ++ [s]) = total b.slots + s.weight := by simp [total]
    rw [htotal] at hlt'
    have hfits : u32 (total b.slots + u32 weight) = total b.slots + u32 weight := u32_of_lt hlt'
    rw [sumsKept_iff, htotal, hsum.getLast, hw, zero_add, hfits]
    exact ⟨hsum.append item (by rw [zero_add]), rfl⟩
  | remove item =>
    obtain ⟨r, hr, rfl⟩ := Option.map_eq_some_iff.mp hrun
    obtain ⟨hsum', htotal⟩ := remove_spec hsum (by omega) hr
    rw [sumsKept_iff]
    refine ⟨hsum', ?_⟩
    simp only
    split_ifs <;> omega
  | adjustWeight item weight =>
    simp only [exec] at hrun
    cases hr : ListSlot.adjust item (u32 weight) b.slots with
    | none =>
      rw [hr] at hrun
      cases hrun
      exact hb
    | some r =>
      rw [hr] at hrun
      cases hrun
      obtain ⟨hsum', htotal⟩ := adjust_spec hsum (by omega) hr (by simpa using hlt')
      rw [sumsKept_iff, hw, htotal]
      exact ⟨hsum', u32_of_lt hlt'⟩
  | reweight child => exact (reweight_sumsKept_iff hb hlt hrun).mpr (hsettled child rfl)

/-- The sums of a list bucket are right after any operations in which no reweight has news, and a
reweight with news makes them wrong. -/
theorem run_sumsKept {items : List (ℤ × ℕ)} {b₀ : ListBucket} {ops : List ListOp}
    (hmake : make items = some b₀) (h : Trace Step b₀ ops b) : b.SumsKept ∧
      ∀ child b', b.exec (.reweight child) = some b' → (b'.SumsKept ↔ b.Settled child) := by
  obtain ⟨r, hr, rfl⟩ := Option.map_eq_some_iff.mp hmake
  obtain ⟨hsum, hw, hlt⟩ := make_spec (by omega) hr
  rw [zero_add] at hw
  have hb := h.invariant (P := fun b => b.SumsKept ∧ total b.slots < 2 ^ 32)
    (fun _ _ _ _ hstep hs => ⟨hstep.sumsKept hs.1 hs.2, hstep.total_lt⟩)
    ⟨sumsKept_iff.mpr ⟨hsum, hw⟩, hw ▸ hlt⟩
  exact ⟨hb.1, fun child b' => reweight_sumsKept_iff hb.1 hb.2⟩

/-- Two items; a third comes, the first goes and the second gets lighter. -/
theorem run_sumsKept_three : make [(0, 5), (-2, 3)] = some ⟨[⟨0, 5, 5⟩, ⟨-2, 3, 8⟩], 8⟩ ∧
    SumsKept ⟨[⟨-2, 1, 1⟩, ⟨4, 2, 3⟩], 3⟩ := by
  have hmake : make [(0, 5), (-2, 3)] = some ⟨[⟨0, 5, 5⟩, ⟨-2, 3, 8⟩], 8⟩ := rfl
  have hrun : Trace Step ⟨[⟨0, 5, 5⟩, ⟨-2, 3, 8⟩], 8⟩ [.add 4 2, .remove 0, .adjustWeight (-2) 1]
      ⟨[⟨-2, 1, 1⟩, ⟨4, 2, 3⟩], 3⟩ :=
    .cons ⟨rfl, by decide, by simp⟩
      (.cons ⟨rfl, by decide, by simp⟩ (.single ⟨rfl, by decide, by simp⟩))
  exact ⟨hmake, (run_sumsKept hmake hrun).1⟩

/-- The child bucket has become heavier: the weights follow, the sums do not. -/
theorem reweight_stale_sums : ∃ b b', make [(-2, 5)] = some b ∧
    b.exec (.reweight fun _ => 7) = some b' ∧ b'.weight = 7 ∧ b'.slots = [⟨-2, 7, 5⟩] :=
  ⟨_, _, rfl, rfl, rfl, rfl⟩

end ListBucket

end CephDokan.Crush
