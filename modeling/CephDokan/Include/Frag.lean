import CephDokan.Common.Buffer

/-!
# Fragments of the hash space

A `frag_t` is a number of bits and a value of which only that many leading bits, of 24, are set.
The two fields are kept apart here; the source packs them in one word, bits above value, which
orders and compares them in the same way. The fragment of `b` bits around a value `v` is
`make b v`: the fragments of one width are the images of `make`, and `contains_iff` says that
a fragment holds exactly the values it is made from.
-/

namespace CephDokan

@[ext] structure Frag where
  bits : ℕ
  value : ℕ
  deriving DecidableEq, Repr

namespace Frag

/-- The word's order: by bits, then by value. -/
instance : LinearOrder Frag :=
  LinearOrder.lift' (fun f => toLex (f.bits, f.value)) fun f g h => by
    cases f
    cases g
    cases h
    rfl

/-- `ceph_frag_make`. -/
def make (b v : ℕ) : Frag := ⟨b, v &&& (0xffffff <<< (24 - b)) &&& 0xffffff⟩

/-- `frag_t()`, the whole space. -/
def root : Frag := ⟨0, 0⟩

def mask (f : Frag) : ℕ := (0xffffff <<< (24 - f.bits)) &&& 0xffffff

/-- `ceph_frag_contains_value`. -/
def contains (f : Frag) (v : ℕ) : Bool := v &&& f.mask = f.value

/-- `ceph_frag_contains_frag`. -/
def containsFrag (f sub : Frag) : Bool := sub.bits ≥ f.bits ∧ sub.value &&& f.mask = f.value

/-- `ceph_frag_parent`. -/
def parent (f : Frag) : Frag := make (f.bits - 1) (f.value &&& (f.mask <<< 1))

/-- `ceph_frag_make_child`. -/
def makeChild (f : Frag) (i nb : ℕ) : Frag :=
  make (f.bits + nb) (f.value ||| (i <<< (24 - (f.bits + nb))))

/-- `frag_t::split`: the children, in order. -/
def split (f : Frag) (nb : ℕ) : List Frag := (List.range (2 ^ nb)).map fun i => f.makeChild i nb

/-- At most 24 bits, and no bit of the value below them. -/
structure Valid (f : Frag) : Prop where
  bits_le : f.bits ≤ 24
  make_eq : make f.bits f.value = f

/-! ### Fragments by their values -/

theorem testBit_make (b v i : ℕ) :
    (make b v).value.testBit i = true ↔ 24 - b ≤ i ∧ i < 24 ∧ v.testBit i = true := by
  have hones : (0xffffff : ℕ) = 2 ^ 24 - 1 := rfl
  simp only [make, hones, Nat.testBit_and, Nat.testBit_shiftLeft, Nat.testBit_two_pow_sub_one,
    Bool.and_eq_true, decide_eq_true_eq]
  constructor
  · rintro ⟨⟨hv, hlow, -⟩, hhigh⟩
    exact ⟨hlow, hhigh, hv⟩
  · rintro ⟨hlow, hhigh, hv⟩
    exact ⟨⟨hv, hlow, by omega⟩, hhigh⟩

variable {g f : Frag} {v i nb : ℕ}

theorem eq_of_testBit (hbits : f.bits = g.bits)
    (h : ∀ i, f.value.testBit i = true ↔ g.value.testBit i = true) : f = g := by
  apply Frag.ext hbits
  apply Nat.eq_of_testBit_eq
  intro i
  exact Bool.eq_iff_iff.mpr (h i)

theorem make_make {b c : ℕ} (h : b ≤ c) (v : ℕ) : make b (make c v).value = make b v := by
  refine eq_of_testBit rfl fun i => ?_
  rw [testBit_make, testBit_make, testBit_make]
  constructor
  · rintro ⟨hlow, hhigh, -, -, hv⟩
    exact ⟨hlow, hhigh, hv⟩
  · rintro ⟨hlow, hhigh, hv⟩
    exact ⟨hlow, hhigh, by omega, hhigh, hv⟩

theorem make_valid {b : ℕ} (h : b ≤ 24) (v : ℕ) : (make b v).Valid := ⟨h, make_make le_rfl v⟩

theorem root_valid : root.Valid := make_valid (b := 0) (by decide) 0

theorem contains_iff (f : Frag) (v : ℕ) : f.contains v = true ↔ make f.bits v = f := by
  rw [contains, decide_eq_true_iff, mask, ← Nat.and_assoc]
  constructor
  · intro h
    exact Frag.ext rfl h
  · intro h
    exact congrArg value h

theorem containsFrag_iff (f g : Frag) :
    f.containsFrag g = true ↔ f.bits ≤ g.bits ∧ f.contains g.value = true := by
  rw [containsFrag, contains, decide_eq_true_iff, decide_eq_true_iff]

theorem root_contains (v : ℕ) : root.contains v = true := by
  rw [contains_iff]
  refine eq_of_testBit rfl fun i => ?_
  rw [testBit_make, show root.value = 0 from rfl, Nat.zero_testBit]
  constructor
  · rintro ⟨hlow, hhigh, -⟩
    exact absurd hhigh (not_lt.mpr hlow)
  · intro h
    cases h

theorem Valid.contains_value (h : f.Valid) : f.contains f.value = true :=
  (f.contains_iff _).mpr h.make_eq

theorem make_contains (b v : ℕ) : (make b v).contains v = true := (contains_iff _ _).mpr rfl

theorem contains_congr (hbits : f.bits ≤ g.bits)
    (hg : g.contains v = true) : f.contains g.value = true ↔ f.contains v = true := by
  have hmake := (g.contains_iff v).mp hg
  rw [contains_iff, contains_iff, ← hmake, make_make hbits]

theorem eq_of_contains (hbits : f.bits = g.bits)
    (hf : f.contains v = true) (hg : g.contains v = true) : f = g := by
  rw [← (f.contains_iff v).mp hf, ← (g.contains_iff v).mp hg, hbits]

theorem Valid.bits_pos (h : f.Valid) (hroot : f ≠ root) : 0 < f.bits := by
  by_contra hzero
  have hbits : f.bits = root.bits := Nat.eq_zero_of_not_pos hzero
  exact hroot (eq_of_contains hbits h.contains_value (root_contains _))

/-! ### Children and parents -/

theorem Valid.testBit (h : f.Valid) (hi : f.value.testBit i = true) : 24 - f.bits ≤ i ∧ i < 24 := by
  rw [← h.make_eq, testBit_make] at hi
  exact ⟨hi.1, hi.2.1⟩

theorem testBit_makeChild (f : Frag) (i nb j : ℕ) :
    (f.makeChild i nb).value.testBit j = true ↔ 24 - (f.bits + nb) ≤ j ∧ j < 24
      ∧ (f.value.testBit j = true ∨ i.testBit (j - (24 - (f.bits + nb))) = true) := by
  rw [makeChild, testBit_make]
  simp only [Nat.testBit_or, Nat.testBit_shiftLeft, Bool.or_eq_true, Bool.and_eq_true,
    decide_eq_true_eq]
  tauto

/-- The number of the child below `f` that holds `v`. -/
def childIndex (v b nb : ℕ) : ℕ := v / 2 ^ (24 - b) % 2 ^ nb

theorem testBit_childIndex (v b nb j : ℕ) :
    (childIndex v b nb).testBit j = true ↔ j < nb ∧ v.testBit (j + (24 - b)) = true := by
  rw [childIndex, Nat.testBit_mod_two_pow, Nat.testBit_div_two_pow, Bool.and_eq_true,
    decide_eq_true_eq]

theorem makeChild_childIndex (hv : f.contains v = true) :
    f.makeChild (childIndex v (f.bits + nb) nb) nb = make (f.bits + nb) v := by
  have hf (j : ℕ) : f.value.testBit j = true ↔ 24 - f.bits ≤ j ∧ j < 24 ∧ v.testBit j = true := by
    rw [← testBit_make, (f.contains_iff v).mp hv]
  refine eq_of_testBit rfl fun j => ?_
  rw [testBit_makeChild, testBit_make, testBit_childIndex, hf]
  constructor
  · rintro ⟨hlow, hhigh, ⟨-, -, hv⟩ | ⟨-, hv⟩⟩
    · exact ⟨hlow, hhigh, hv⟩
    · rw [Nat.sub_add_cancel hlow] at hv
      exact ⟨hlow, hhigh, hv⟩
  · rintro ⟨hlow, hhigh, hv⟩
    refine ⟨hlow, hhigh, ?_⟩
    -- the bit is one of `f`, or one of the `nb` below them
    by_cases hj : 24 - f.bits ≤ j
    · exact .inl ⟨hj, hhigh, hv⟩
    · rw [Nat.sub_add_cancel hlow]
      exact .inr ⟨by omega, hv⟩

section

variable (hf : f.Valid) (hfits : f.bits + nb ≤ 24)

include hf hfits

theorem childIndex_makeChild
    (hi : i < 2 ^ nb) : childIndex (f.makeChild i nb).value (f.bits + nb) nb = i := by
  apply Nat.eq_of_testBit_eq
  intro j
  rw [Bool.eq_iff_iff, testBit_childIndex, testBit_makeChild, Nat.add_sub_cancel]
  constructor
  · rintro ⟨hj, hlow, hhigh, hv | hv⟩
    · have := hf.testBit hv
      omega
    · exact hv
  · intro hv
    have hj : j < nb := by
      by_contra hge
      have hsmall : i < 2 ^ j := hi.trans_le (Nat.pow_le_pow_right (by decide) (by omega))
      rw [Nat.testBit_lt_two_pow hsmall] at hv
      exact Bool.false_ne_true hv
    exact ⟨hj, by omega, by omega, .inr hv⟩

theorem contains_makeChild (hi : i < 2 ^ nb) : f.contains (f.makeChild i nb).value = true := by
  rw [contains_iff]
  refine eq_of_testBit rfl fun j => ?_
  rw [testBit_make, testBit_makeChild]
  constructor
  · rintro ⟨hlow, hhigh, -, -, hv | hv⟩
    · exact hv
    · -- a bit of the index lies below those of `f`
      have hsmall : i < 2 ^ (j - (24 - (f.bits + nb))) :=
        hi.trans_le (Nat.pow_le_pow_right (by decide) (by omega))
      rw [Nat.testBit_lt_two_pow hsmall] at hv
      exact absurd hv Bool.false_ne_true
  · intro hv
    have hj := hf.testBit hv
    exact ⟨hj.1, hj.2, by omega, hj.2, .inl hv⟩

theorem mem_split (c : Frag) :
    c ∈ f.split nb ↔ c.Valid ∧ c.bits = f.bits + nb ∧ f.contains c.value = true := by
  rw [split, List.mem_map]
  constructor
  · rintro ⟨i, hi, rfl⟩
    exact ⟨make_valid hfits _, rfl, contains_makeChild hf hfits (List.mem_range.mp hi)⟩
  · rintro ⟨hc, hbits, hcontains⟩
    refine ⟨childIndex c.value (f.bits + nb) nb, ?_, ?_⟩
    · exact List.mem_range.mpr (Nat.mod_lt _ (by positivity))
    · rw [makeChild_childIndex hcontains, ← hbits, hc.make_eq]

theorem make_mem_split (hv : f.contains v = true) : make (f.bits + nb) v ∈ f.split nb := by
  rw [mem_split hf hfits]
  refine ⟨make_valid hfits v, rfl, ?_⟩
  rwa [contains_congr (Nat.le_add_right _ _) (make_contains _ v)]

end

theorem length_split (f : Frag) (nb : ℕ) : (f.split nb).length = 2 ^ nb := by
  rw [split, List.length_map, List.length_range]

theorem split_nodup (hf : f.Valid) (hfits : f.bits + nb ≤ 24) : (f.split nb).Nodup := by
  apply List.Nodup.map_on _ List.nodup_range
  intro i hi j hj h
  have hindex := congrArg (fun c => childIndex (value c) (f.bits + nb) nb) h
  rwa [childIndex_makeChild hf hfits (List.mem_range.mp hi),
    childIndex_makeChild hf hfits (List.mem_range.mp hj)] at hindex

theorem parent_eq (hle : f.bits ≤ 24) : f.parent = make (f.bits - 1) f.value := by
  have hones : (0xffffff : ℕ) = 2 ^ 24 - 1 := rfl
  refine eq_of_testBit rfl fun i => ?_
  rw [parent, testBit_make, testBit_make]
  simp only [mask, hones, Nat.testBit_and, Nat.testBit_shiftLeft, Nat.testBit_two_pow_sub_one,
    Bool.and_eq_true, decide_eq_true_eq]
  constructor
  · rintro ⟨hlow, hhigh, hv, -⟩
    exact ⟨hlow, hhigh, hv⟩
  · rintro ⟨hlow, hhigh, hv⟩
    exact ⟨hlow, hhigh, hv, by omega⟩

end Frag

end CephDokan
