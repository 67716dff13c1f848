import CephDokan.Include.IntervalOps
import CephDokan.Lib.Trace

/-!
# The snapshot ids of a pool

A pool has snapshots of its own or lets its users manage them, and `pg_pool_t` tells the two
modes apart by `removed_snaps`, which gets a first entry when the users begin. Every change takes
a new `snap_seq`. An id that the users remove before it was handed out is handed out later.
-/

namespace CephDokan.Osd

open Fallible

/-- What the snapshots use of `pg_pool_t`, with the name and the time of each one. The
`interval_set` of the removed ones is the set of its members. -/
structure SnapPool where
  snapSeq : ℕ := 0
  snaps : ℕ → Option (String × ℕ) := fun _ => none
  removedSnaps : Finset ℕ := ∅

namespace SnapPool

variable (p : SnapPool)

def isPoolSnapsMode : Bool := p.removedSnaps = ∅ ∧ 0 < p.snapSeq

/-- The size of the set is an `int`. -/
def isUnmanagedSnapsMode : Bool := u32 p.removedSnaps.card ≠ 0 ∧ 0 < p.snapSeq

def isRemovedSnap (s : ℕ) : Bool :=
  if p.isPoolSnapsMode then s ≤ p.snapSeq ∧ p.snaps s = none else s ∈ p.removedSnaps

def buildRemovedSnaps : Finset ℕ :=
  if p.isPoolSnapsMode then (Finset.Icc 1 p.snapSeq).filter fun s => p.snaps s = none
  else p.removedSnaps

/-- `insert` of `interval_set`, which stops at a value that is there -/
def insertRemoved (s : ℕ) : Run SnapPool := do
  assertThat (s ∉ p.removedSnaps)
  return { p with removedSnaps := insert s p.removedSnaps }

/-- The `interval_set` takes or refuses a value as the set does. -/
theorem insertRemoved_refines {t : IntervalSet} (h : t.Ok) (hset : t.covered = p.removedSnaps)
    {s : ℕ} (hs : s + 1 < 2 ^ 64) (hfew : Intervals.total t.m.entries + 1 < 2 ^ 63) :
    p.insertRemoved s = .error .assertion ∧ t.insert s 1 = .error .assertion ∨
      ∃ p' t', p.insertRemoved s = .ok p' ∧ t.insert s 1 = .ok t' ∧ t'.Ok ∧
        t'.covered = p'.removedSnaps := by
  by_cases hin : s ∈ p.removedSnaps
  · have hcovered : s ∈ t.covered := hset ▸ hin
    refine .inl ⟨by rw [insertRemoved, assertThat, check, if_neg (not_not.mpr hin)]; rfl,
      (h.insert_overlapping one_pos hs ⟨s, by simp, hcovered⟩).mpr fun e he hend => ?_⟩
    -- the values up to the end of an interval and the next one are not in the set
    obtain ⟨pre, post, hsplit⟩ := List.append_of_mem he
    have hcanon := h.canonical
    rw [IntervalSet.mem_covered, hsplit, Intervals.covers_append, Intervals.covers_cons] at hcovered
    rw [hsplit] at hcanon
    rcases hcovered with ⟨f, hf, -, hlt⟩ | ⟨-, hlt⟩ | hpost
    · have := hcanon.between f hf e List.mem_cons_self
      omega
    · omega
    · have := hcanon.right.lt_of_covers hpost
      omega
  · have hfree : ∀ v, s ≤ v → v < s + 1 → ¬Intervals.Covers t.m.entries v := by
      intro v h1 h2 hv
      obtain rfl : v = s := by omega
      exact hin (Finset.mem_coe.mp (hset ▸ hv))
    obtain ⟨t', hrun, hok, hcovers, -⟩ := h.insert_spec one_pos hs hfew hfree
    refine .inr ⟨_, t', by rw [insertRemoved, assertThat_of hin]; rfl, hrun, hok, ?_⟩
    ext v
    have hold : Intervals.Covers t.m.entries v ↔ v ∈ p.removedSnaps := Set.ext_iff.mp hset v
    rw [IntervalSet.mem_covered, hcovers v, hold]
    have hone : s ≤ v ∧ v < s + 1 ↔ v = s := by omega
    rw [hone, or_comm]
    simp

def addSnap (name : String) (stamp : ℕ) : Run SnapPool := do
  assertThat (p.isUnmanagedSnapsMode = false)
  let s := u64 (p.snapSeq + 1)
  return { p with snapSeq := s, snaps := Function.update p.snaps s (some (name, stamp)) }

/-- `add_unmanaged_snap`, which also returns the id -/
def addUnmanagedSnap : Run (SnapPool × ℕ) := do
  let p ← (if p.removedSnaps = ∅ then do
      assertThat (p.isPoolSnapsMode = false)
      let p ← p.insertRemoved 1
      return { p with snapSeq := 1 }
    else return p : Run SnapPool)
  let s := u64 (p.snapSeq + 1)
  return ({ p with snapSeq := s }, s)

def removeSnap (s : ℕ) : Run SnapPool := do
  assertThat (p.snaps s ≠ none)
  return { p with snaps := Function.update p.snaps s none, snapSeq := u64 (p.snapSeq + 1) }

def removeUnmanagedSnap (s : ℕ) : Run SnapPool := do
  assertThat (p.isUnmanagedSnapsMode = true)
  let p ← p.insertRemoved s
  insertRemoved { p with snapSeq := u64 (p.snapSeq + 1) } (u64 (p.snapSeq + 1))

end SnapPool

inductive SnapOp
  | addSnap (name : String) (stamp : ℕ)
  | addUnmanagedSnap
  | removeSnap (s : ℕ)
  | removeUnmanagedSnap (s : ℕ)

/-- A pool with the ids that were handed out and those that were removed. -/
structure SnapLife where
  pool : SnapPool := {}
  given : List ℕ := []
  removed : List ℕ := []

namespace SnapLife

def exec (x : SnapLife) : SnapOp → Run SnapLife
  | .addSnap name stamp => do
    let pool ← x.pool.addSnap name stamp
    return { x with pool, given := pool.snapSeq :: x.given }
  | .addUnmanagedSnap => do
    let (pool, id) ← x.pool.addUnmanagedSnap
    return { x with pool, given := id :: x.given }
  | .removeSnap s => do
    let pool ← x.pool.removeSnap s
    return { x with pool, removed := s :: x.removed }
  | .removeUnmanagedSnap s => do
    let pool ← x.pool.removeUnmanagedSnap s
    return { x with pool, removed := s :: x.removed }

/-- A change that meets its assertions, before the 64 bits of the ids are used up. The users
remove what they were given. -/
structure Step (op : SnapOp) (x y : SnapLife) : Prop where
  run : x.exec op = .ok y
  fits : x.pool.snapSeq + 2 < 2 ^ 64
  known : ∀ s, op = .removeUnmanagedSnap s → s ∈ x.given

/-- No id is above `snap_seq`. -/
structure Inv (x : SnapLife) : Prop where
  given : ∀ s ∈ x.given, s ≤ x.pool.snapSeq
  removed : ∀ s ∈ x.removed, s ≤ x.pool.snapSeq
  snaps : ∀ s, x.pool.snaps s ≠ none → s ≤ x.pool.snapSeq

variable {x y : SnapLife} {op : SnapOp}

/-- What a change does: a new id above `snap_seq`, or a known id is removed. -/
theorem Step.cases (h : Step op x y) (hx : x.Inv) : x.pool.snapSeq < y.pool.snapSeq ∧
    (∀ s, y.pool.snaps s ≠ none → x.pool.snaps s ≠ none ∨ s = y.pool.snapSeq) ∧
    (y.given = y.pool.snapSeq :: x.given ∧ y.removed = x.removed ∨
      ∃ s ≤ x.pool.snapSeq, y.given = x.given ∧ y.removed = s :: x.removed) := by
  obtain ⟨hrun, hfits, hknown⟩ := h
  have hnext : u64 (x.pool.snapSeq + 1) = x.pool.snapSeq + 1 := u64_of_lt (by omega)
  cases op with
  | addSnap name stamp =>
    obtain ⟨pool, hpool, hrun⟩ := bind_eq_ok.mp hrun
    cases hrun
    obtain ⟨_, -, hpool⟩ := bind_eq_ok.mp hpool
    cases hpool
    dsimp only
    rw [hnext]
    refine ⟨Nat.lt_succ_self _, ?_, .inl ⟨rfl, rfl⟩⟩
    intro s hs
    by_cases he : s = x.pool.snapSeq + 1
    · exact .inr he
    · exact .inl (by rwa [Function.update_of_ne he] at hs)
  | addUnmanagedSnap =>
    obtain ⟨⟨pool, id⟩, hpool, hrun⟩ := bind_eq_ok.mp hrun
    cases hrun
    obtain ⟨p, hfirst, hpool⟩ := bind_eq_ok.mp hpool
    cases hpool
    have hp : x.pool.snapSeq ≤ p.snapSeq ∧ p.snapSeq + 1 < 2 ^ 64 ∧ p.snaps = x.pool.snaps := by
      split_ifs at hfirst with hempty
      · obtain ⟨_, hmode, hfirst⟩ := bind_eq_ok.mp hfirst
        obtain ⟨q, hq, hfirst⟩ := bind_eq_ok.mp hfirst
        obtain ⟨_, -, hq⟩ := bind_eq_ok.mp hq
        cases hq
        cases hfirst
        -- without an entry and not in the other mode, the pool is as new
        have hzero : x.pool.snapSeq = 0 := by
          simpa [SnapPool.isPoolSnapsMode, hempty] using assertThat_eq_ok.mp hmode
        simp [hzero]
      · cases hfirst
        exact ⟨le_rfl, by omega, rfl⟩
    rw [u64_of_lt hp.2.1]
    refine ⟨by simpa using hp.1, ?_, .inl ⟨rfl, rfl⟩⟩
    intro s hs
    exact .inl (hp.2.2 ▸ hs)
  | removeSnap s =>
    obtain ⟨pool, hpool, hrun⟩ := bind_eq_ok.mp hrun
    cases hrun
    obtain ⟨_, hs, hpool⟩ := bind_eq_ok.mp hpool
    cases hpool
    dsimp only
    rw [hnext]
    refine ⟨Nat.lt_succ_self _, ?_, .inr ⟨s, hx.snaps s (assertThat_eq_ok.mp hs), rfl, rfl⟩⟩
    intro s' hs'
    left
    by_cases he : s' = s
    · exact he ▸ assertThat_eq_ok.mp hs
    · rwa [Function.update_of_ne he] at hs'
  | removeUnmanagedSnap s =>
    obtain ⟨pool, hpool, hrun⟩ := bind_eq_ok.mp hrun
    cases hrun
    obtain ⟨_, -, hpool⟩ := bind_eq_ok.mp hpool
    obtain ⟨p, hp, hpool⟩ := bind_eq_ok.mp hpool
    obtain ⟨_, -, hp⟩ := bind_eq_ok.mp hp
    cases hp
    obtain ⟨_, -, hpool⟩ := bind_eq_ok.mp hpool
    cases hpool
    rw [hnext]
    exact ⟨Nat.lt_succ_self _, fun _ => .inl, .inr ⟨s, hx.given s (hknown s rfl), rfl, rfl⟩⟩

theorem Step.inv (h : Step op x y) (hx : x.Inv) : y.Inv := by
  obtain ⟨hseq, hsnaps, hids⟩ := h.cases hx
  obtain ⟨hg, hr, hs⟩ := hx
  refine ⟨?_, ?_, ?_⟩ <;> grind

theorem isRemovedSnap_iff (p : SnapPool) {s : ℕ} (hs : 1 ≤ s) :
    p.isRemovedSnap s = true ↔ s ∈ p.buildRemovedSnaps := by
  unfold SnapPool.isRemovedSnap SnapPool.buildRemovedSnaps
  split_ifs <;> simp [hs]

/-- After any changes of a new pool the next id is new, and both views of the removed snapshots
agree. -/
theorem run_ids_new {ops : List SnapOp} (h : Trace Step {} ops x) :
    ¬(x.pool.isPoolSnapsMode = true ∧ x.pool.isUnmanagedSnapsMode = true) ∧
      (∀ op y id, Step op x y → y.given = id :: x.given → (∀ s ∈ x.given, s < id) ∧
        id ∉ x.removed) ∧
      ∀ s, 1 ≤ s → (x.pool.isRemovedSnap s = true ↔ s ∈ x.pool.buildRemovedSnaps) := by
  have hx : x.Inv := h.invariant (fun _ _ _ _ hstep => hstep.inv)
    ⟨by simp, by simp, by simp⟩
  refine ⟨?_, ?_, fun s => isRemovedSnap_iff x.pool⟩
  · rintro ⟨hpool, husers⟩
    simp only [SnapPool.isPoolSnapsMode, SnapPool.isUnmanagedSnapsMode, decide_eq_true_eq] at *
    simp [hpool.1, u32] at husers
  · intro op y id hstep hid
    obtain ⟨hseq, -, hids⟩ := hstep.cases hx
    rcases hids with ⟨hgiven, -⟩ | ⟨s, -, hgiven, -⟩
    · obtain rfl : y.pool.snapSeq = id := (List.cons.inj (hgiven.symm.trans hid)).1
      exact ⟨fun s hs => (hx.given s hs).trans_lt hseq, fun hr => (hx.removed _ hr).not_gt hseq⟩
    · exact absurd (hgiven.symm.trans hid) (List.ne_cons_self)

/-- The users take an id and give it back; the next one is neither it nor the one that the
removal took. -/
theorem run_ids_new_users : ∃ x y, Trace Step {} [.addUnmanagedSnap, .removeUnmanagedSnap 2] x ∧
    Step .addUnmanagedSnap x y ∧ y.given = 4 :: x.given ∧ 4 ∉ x.removed := by
  obtain ⟨x, hx, y, hstep, hgiven⟩ : ∃ x, Trace Step {} [.addUnmanagedSnap,
      .removeUnmanagedSnap 2] x ∧ ∃ y, Step .addUnmanagedSnap x y ∧ y.given = 4 :: x.given :=
    ⟨_, .cons ⟨rfl, by decide, by simp⟩ (.cons ⟨rfl, by decide, by simp [u64]⟩ (.nil _)), _,
      ⟨rfl, by decide, by simp⟩, rfl⟩
  exact ⟨x, y, hx, hstep, hgiven, ((run_ids_new hx).2.1 _ y 4 hstep hgiven).2⟩

/-- The users remove the id 4, which is then handed out. -/
theorem removed_id_given :
    ∃ x, [.addUnmanagedSnap, .removeUnmanagedSnap 4, .addUnmanagedSnap].foldlM exec {} = .ok x ∧
      x.given = [4, 2] ∧ x.removed = [4] := ⟨_, rfl, rfl, rfl⟩

end SnapLife

end CephDokan.Osd
