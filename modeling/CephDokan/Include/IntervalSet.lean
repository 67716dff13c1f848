import CephDokan.Common.Buffer
import CephDokan.Lib.SortedMap
import CephDokan.Lib.While

/-!
# interval_set

The template over an unsigned 64-bit type: a map from the start of each interval to its length, and
a running size. Sums and differences wrap as in `uint64_t`, the size as in `int64_t`. An iterator
is given by the entry it points at, `none` being the end.
-/

namespace CephDokan

/-- `_size` and `m`. -/
structure IntervalSet where
  size : ℤ
  m : SortedMap ℕ ℕ

namespace IntervalSet

/-- A value of `int64_t`. -/
def s64 (z : ℤ) : ℤ := z.bmod (2 ^ 64)

/-- `p->first + p->second`. -/
def endOf (p : ℕ × ℕ) : ℕ := u64 (p.1 + p.2)

def empty : IntervalSet := ⟨0, ∅⟩

variable (s : IntervalSet)

/-- The search of `find_inc` and `find_adj`: `lower_bound`, or the entry before it unless that one
is passed. -/
def find (start : ℕ) (passed : ℕ → Bool) : Option (ℕ × ℕ) :=
  let p := s.m.entries.find? fun e => start ≤ e.1
  match (s.m.entries.filter fun e => e.1 < start).getLast? with
  | none => p
  | some q => if (∀ e ∈ p, e.1 > start) ∧ ¬passed (endOf q) then some q else p

def findInc (start : ℕ) : Option (ℕ × ℕ) := s.find start fun e => e ≤ start

def findAdj (start : ℕ) : Option (ℕ × ℕ) := s.find start fun e => e < start

def contains (start len : ℕ) : Run Bool :=
  match s.findInc start with
  | none => .ok false
  | some p =>
    if p.1 > start then .ok false
    else if endOf p ≤ start then .ok false
    else do
      assertThat (p.1 ≤ start ∧ endOf p > start)
      return !(endOf p < u64 (start + len))

/-- `contains(T i)`. -/
def containsValue (i : ℕ) : Run Bool :=
  match s.findInc i with
  | none => .ok false
  | some p =>
    if p.1 > i then .ok false
    else if endOf p ≤ i then .ok false
    else do
      assertThat (p.1 ≤ i ∧ endOf p > i)
      return true

def insert (start len : ℕ) : Run IntervalSet := do
  assertThat (len > 0)
  let size := s64 (s.size + len)
  match s.findAdj start with
  | none => return ⟨size, s.m.insert start len⟩
  | some p =>
    if p.1 < start then
      assertThat (endOf p = start)
      -- append to end
      let m := s.m.modify p.1 fun second => u64 (second + len)
      match m.entries.find? fun e => p.1 < e.1 with
      | none => return ⟨size, m⟩
      | some n =>
        if u64 (start + len) = n.1 then
          -- combine with next, too!
          return ⟨size, (m.modify p.1 fun second => u64 (second + n.2)).erase n.1⟩
        else return ⟨size, m⟩
    else if u64 (start + len) = p.1 then
      -- append to front
      return ⟨size, (s.m.insert start (u64 (len + p.2))).erase p.1⟩
    else
      assertThat (p.1 > u64 (start + len))
      return ⟨size, s.m.insert start len⟩

def erase (start len : ℕ) : Run IntervalSet := do
  let size := s64 (s.size - len)
  assertThat (size ≥ 0)
  match s.findInc start with
  | none => .error .assertion
  | some p =>
    assertThat (p.1 ≤ start)
    let before := sub64 start p.1
    assertThat (p.2 ≥ u64 (before + len))
    let after := sub64 (sub64 p.2 before) len
    let m := if before ≠ 0 then s.m.modify p.1 fun _ => before else s.m.erase p.1
    return ⟨size, if after ≠ 0 then m.insert (u64 (start + len)) after else m⟩

def subtract (s a : IntervalSet) : Run IntervalSet :=
  a.m.entries.foldlM (fun s p => s.erase p.1 p.2) s

/-- `insert(const interval_set&)`. -/
def insertAll (s a : IntervalSet) : Run IntervalSet :=
  a.m.entries.foldlM (fun s p => s.insert p.1 p.2) s

/-- One round of `intersection_of`: what is left of both maps, and the result so far. -/
def intersectStep : List (ℕ × ℕ) × List (ℕ × ℕ) × IntervalSet →
    Run ((List (ℕ × ℕ) × List (ℕ × ℕ) × IntervalSet) ⊕ IntervalSet)
  | ([], _, s) => .ok (.inr s)
  | (_, [], s) => .ok (.inr s)
  | (x :: pa, y :: pb, s) =>
    if endOf x ≤ y.1 then .ok (.inl (pa, y :: pb, s))
    else if endOf y ≤ x.1 then .ok (.inl (x :: pa, pb, s))
    else do
      let start := max x.1 y.1
      let en := min (endOf x) (endOf y)
      assertThat (en > start)
      let s ← s.insert start (sub64 en start)
      return .inl (if endOf x > endOf y then (x :: pa, pb, s) else (pa, y :: pb, s))

def intersectionOf (a b : IntervalSet) : Run IntervalSet :=
  While.loop intersectStep .diverged (a.m.entries.length + b.m.entries.length + 1)
    (a.m.entries, b.m.entries, empty)

def intersects (start len : ℕ) : Run Bool := do
  let a ← empty.insert start len
  let i ← intersectionOf s a
  return !i.m.entries.isEmpty

/-- `union_of`: `a`, less what `b` has of it, and `b`. -/
def unionOf (a b : IntervalSet) : Run IntervalSet := do
  let ab ← intersectionOf a b
  let s ← a.subtract ab
  s.insertAll b

/-- The rounds of `subset_of`. -/
def allContained (big : IntervalSet) : List (ℕ × ℕ) → Run Bool
  | [] => .ok true
  | i :: is => do
    if ← big.contains i.1 i.2 then allContained big is else return false

def subsetOf (s big : IntervalSet) : Run Bool := allContained big s.m.entries

/-- The loop of `span_of` over the entries that are left. -/
def spanLoop : List (ℕ × ℕ) → IntervalSet → ℕ → Run IntervalSet
  | [], s, _ => .ok s
  | p :: ps, s, len =>
    if len > 0 then
      if p.2 < len then do
        let s ← s.insert p.1 p.2
        spanLoop ps s (sub64 len p.2)
      else s.insert p.1 len
    else .ok s

def spanOf (other : IntervalSet) (start len : ℕ) : Run IntervalSet :=
  match other.findInc start with
  | none => .ok empty
  | some p =>
    if p.1 < start then
      if endOf p < start then .ok empty
      else if endOf p < u64 (start + len) then do
        let howmuch := sub64 p.2 (sub64 start p.1)
        let s ← empty.insert start howmuch
        spanLoop (other.m.entries.filter fun e => p.1 < e.1) s (sub64 len howmuch)
      else empty.insert start len
    else spanLoop (other.m.entries.filter fun e => p.1 ≤ e.1) empty len

end IntervalSet

end CephDokan
