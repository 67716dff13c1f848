import CephDokan.Lib.SortedMap

/-!
# The names of the pools

`apply_incremental` of `OSDMap` edits `pool_name` and its index `name_pool` entry by entry:
the pools that go in the order of their ids, then the new names in the order of the pools. A
pool that is renamed takes its old name out of the index, also where a pool before it has just
been given that name. A pool without a name is taken for one with the empty name when it goes.
-/

namespace CephDokan.Osd

open Function List SortedMap

/-- What `apply_incremental` touches of the pools, a pool being its `last_change` and the rest. -/
structure PoolMap (Pool : Type) where
  fsid : ℕ
  epoch : ℕ
  pools : ℤ → Option (ℕ × Pool)
  poolName : ℤ → Option String
  namePool : String → Option ℤ

/-- A whole map, as it is stored: without the index. -/
structure FullMap (Pool : Type) where
  fsid : ℕ
  epoch : ℕ
  pools : ℤ → Option (ℕ × Pool)
  poolName : SortedMap ℤ String

/-- `OSDMap::Incremental` -/
structure Incremental (Pool : Type) where
  fsid : ℕ
  epoch : ℕ
  fullmap : Option (FullMap Pool)
  oldPools : List ℤ
  newPools : SortedMap ℤ Pool
  newPoolNames : SortedMap ℤ String
  oldPools_sorted : oldPools.Pairwise (· < ·)

namespace PoolMap

variable {Pool : Type}

def einval : ℤ := 22

/-- The index that `post_decode` builds -/
def indexOf (names : List (ℤ × String)) : String → Option ℤ :=
  names.foldl (fun index e => update index e.2 (some e.1)) fun _ => none

def decode (full : FullMap Pool) : PoolMap Pool where
  fsid := full.fsid
  epoch := full.epoch
  pools := full.pools
  poolName := full.poolName.find?
  namePool := indexOf full.poolName.entries

variable (m : PoolMap Pool)

/-- A round of the loop over `old_pools` -/
def dropPool (p : ℤ) : PoolMap Pool :=
  { m with
    pools := update m.pools p none
    -- `pool_name[*p]` makes the empty name where there is none
    namePool := update m.namePool ((m.poolName p).getD "") none
    poolName := update m.poolName p none }

/-- A round of the loop over `new_pools` -/
def setPool (e : ℤ × Pool) : PoolMap Pool :=
  { m with pools := update m.pools e.1 (some (m.epoch, e.2)) }

/-- A round of the loop over `new_pool_names` -/
def setName (e : ℤ × String) : PoolMap Pool :=
  { m with
    namePool := update ((m.poolName e.1).elim m.namePool (update m.namePool · none)) e.2 (some e.1)
    poolName := update m.poolName e.1 (some e.2) }

/-- `apply_incremental`, its return value and the pools it leaves; none if its assertion fails. -/
def applyIncremental (inc : Incremental Pool) : Option (ℤ × PoolMap Pool) :=
  if inc.epoch ≠ 1 ∧ inc.fsid ≠ m.fsid then some (-einval, m)
  else if inc.epoch ≠ m.epoch + 1 then none
  else
    match inc.fullmap with
    | some full => some (0, decode full)
    | none =>
      let m := { m with fsid := inc.fsid, epoch := m.epoch + 1 }
      let m := inc.oldPools.foldl dropPool m
      let m := inc.newPools.entries.foldl setPool m
      some (0, inc.newPoolNames.entries.foldl setName m)

def Indexed : Prop := ∀ n p, m.namePool n = some p ↔ m.poolName p = some n

def Distinct : Prop :=
  ∀ p q n, m.poolName p = some n → m.poolName q = some n → p = q

/-- The edits do not get in each other's way. -/
structure Apart (m : PoolMap Pool) (inc : Incremental Pool) : Prop where
  /-- No pool is given the name that a later pool is about to give up. -/
  renames : ∀ e ∈ inc.newPoolNames.entries, ∀ e' ∈ inc.newPoolNames.entries, e.1 < e'.1 →
    m.poolName e'.1 = some e.2 → e'.1 ∈ inc.oldPools
  /-- No pool without a name goes, if a pool that is not edited has the empty name. -/
  drops : ∀ p ∉ inc.oldPools, m.poolName p = some "" →
    (∀ e ∈ inc.newPoolNames.entries, e.1 ≠ p) → ∀ q ∈ inc.oldPools, m.poolName q ≠ none

/-- Every entry of the index is right; there may be too few of them. -/
def Sound : Prop := ∀ n p, m.namePool n = some p → m.poolName p = some n

variable {m : PoolMap Pool} {n : String} {p : ℤ} {e : ℤ × String}

theorem Indexed.distinct (h : m.Indexed) : m.Distinct := by
  intro p q n hp hq
  exact Option.some.inj (((h n p).mpr hp).symm.trans ((h n q).mpr hq))

/-! ### One edit -/

@[grind =] theorem dropPool_poolName (m : PoolMap Pool) (d p : ℤ) :
    (m.dropPool d).poolName p = if p = d then none else m.poolName p := update_apply ..

@[grind =] theorem setName_poolName (m : PoolMap Pool) (e : ℤ × String) (p : ℤ) :
    (m.setName e).poolName p = if p = e.1 then some e.2 else m.poolName p := update_apply ..

@[grind =] theorem dropPool_namePool (m : PoolMap Pool) (d : ℤ) :
    (m.dropPool d).namePool n = if n = (m.poolName d).getD "" then none else m.namePool n :=
  update_apply ..

@[grind =] theorem setName_namePool (m : PoolMap Pool) (e : ℤ × String) : (m.setName e).namePool n =
      if n = e.2 then some e.1 else if m.poolName e.1 = some n then none else m.namePool n := by
  simp only [setName, update_apply]
  cases m.poolName e.1 with
  | none => rfl
  | some old => simp [update_apply, eq_comm]

/-! ### The loops -/

section Drop

variable {l : List ℤ}

theorem foldl_dropPool_sound (h : m.Sound) : (l.foldl dropPool m).Sound := by
  induction l generalizing m with grind [Sound]

theorem foldl_dropPool_poolName :
    (l.foldl dropPool m).poolName p = if p ∈ l then none else m.poolName p := by
  induction l generalizing m with grind

/-- A name of no pool that goes is lost only if it is the empty one. -/
theorem foldl_dropPool_namePool (hl : l.Pairwise (· < ·)) (h : ∀ d ∈ l, m.poolName d ≠ some n) :
    (l.foldl dropPool m).namePool n = some p ↔
      m.namePool n = some p ∧ (n = "" → ∀ d ∈ l, m.poolName d ≠ none) := by
  induction l generalizing m with
  | nil => simp
  | cons d l ih =>
    rw [pairwise_cons] at hl
    have hlater : ∀ d' ∈ l, (m.dropPool d).poolName d' = m.poolName d' := by grind
    rw [foldl_cons, ih hl.2 (by grind), dropPool_namePool]
    cases hd : m.poolName d with grind

theorem foldl_setPool_names (l : List (ℤ × Pool)) :
    (l.foldl setPool m).poolName = m.poolName ∧ (l.foldl setPool m).namePool = m.namePool := by
  induction l generalizing m with
  | nil => exact ⟨rfl, rfl⟩
  | cons e l ih => exact ih

end Drop

section Names

variable {l : List (ℤ × String)}

theorem foldl_setName_sound (h : m.Sound) : (l.foldl setName m).Sound := by
  induction l generalizing m with grind [Sound]

theorem foldl_setName_of_notMem (hp : ∀ e ∈ l, e.1 ≠ p) :
    (l.foldl setName m).poolName p = m.poolName p := by
  induction l generalizing m with grind

variable (hl : l.Pairwise fun x y => x.1 < y.1)
include hl

/-- A name that no pool is given is lost exactly if a pool gives it up. -/
theorem foldl_setName_namePool (hn : ∀ e ∈ l, e.2 ≠ n) : (l.foldl setName m).namePool n = some p ↔
      m.namePool n = some p ∧ ∀ e ∈ l, m.poolName e.1 ≠ some n := by
  induction l generalizing m with
  | nil => simp
  | cons e l ih =>
    rw [pairwise_cons] at hl
    have hlater : ∀ e' ∈ l, (m.setName e).poolName e'.1 = m.poolName e'.1 := by grind
    rw [foldl_cons, ih hl.2 (by grind)]
    grind

theorem foldl_setName_of_mem (he : e ∈ l) : (l.foldl setName m).poolName e.1 = some e.2 := by
  induction l generalizing m with
  | nil => simp at he
  | cons a l ih =>
    rw [pairwise_cons] at hl
    rcases mem_cons.mp he with rfl | he
    · rw [foldl_cons, foldl_setName_of_notMem (by grind)]
      grind
    · exact ih hl.2 he

/-- A pool that was given a name is found unless a later pool gives that name up. -/
theorem found_named_iff (he : e ∈ l) (hd : ∀ e' ∈ l, e'.2 = e.2 → e' = e) :
    (l.foldl setName m).namePool e.2 = some e.1 ↔
      ∀ e' ∈ l, e.1 < e'.1 → m.poolName e'.1 ≠ some e.2 := by
  induction l generalizing m with
  | nil => simp at he
  | cons a l ih =>
    rw [pairwise_cons] at hl
    rcases mem_cons.mp he with rfl | he
    · have hlater : ∀ e' ∈ l, (m.setName e).poolName e'.1 = m.poolName e'.1 := by grind
      rw [foldl_cons, foldl_setName_namePool hl.2 (by grind)]
      grind
    · grind

end Names

theorem indexOf_eq_some {l} (hl : ∀ e ∈ l, ∀ e' ∈ l, e.2 = e'.2 → e = e') :
    indexOf l n = some p ↔ (p, n) ∈ l := by
  unfold indexOf
  induction l using List.reverseRecOn with
  | nil => simp
  | append_singleton l e ih =>
    rw [foldl_append, foldl_cons, foldl_nil, update_apply]
    split_ifs with hn
    · refine ⟨by grind, ?_⟩
      intro hp
      rw [← hl _ hp e (by simp) hn]
    · rw [ih fun e he e' he' => hl e (by simp [he]) e' (by simp [he'])]
      grind

theorem foldl_indexed_iff (h : m.Indexed) (inc : Incremental Pool) {m1 m2}
    (h1 : m1 = inc.newPools.entries.foldl setPool (inc.oldPools.foldl dropPool m))
    (h2 : m2 = inc.newPoolNames.entries.foldl setName m1) (hd : m2.Distinct) :
    m2.Indexed ↔ m.Apart inc := by
  have hs := inc.newPoolNames.sorted
  have hname : ∀ p, m1.poolName p = if p ∈ inc.oldPools then none else m.poolName p := by
    intro p
    rw [h1, (foldl_setPool_names _).1, foldl_dropPool_poolName]
  have hsound : m1.Sound := by
    intro n p hp
    rw [h1, (foldl_setPool_names _).2] at hp
    rw [h1, (foldl_setPool_names _).1]
    exact foldl_dropPool_sound (fun n p => (h n p).mp) n p hp
  have hmem : ∀ e ∈ inc.newPoolNames.entries, m2.poolName e.1 = some e.2 :=
    fun e he => h2 ▸ foldl_setName_of_mem hs he
  have hother : ∀ p, (∀ e ∈ inc.newPoolNames.entries, e.1 ≠ p) → m2.poolName p = m1.poolName p :=
    fun p hp => h2 ▸ foldl_setName_of_notMem hp
  -- a pool that was given a name, and one that keeps its own
  have hnamed : ∀ e ∈ inc.newPoolNames.entries, m2.namePool e.2 = some e.1 ↔
      ∀ e' ∈ inc.newPoolNames.entries, e.1 < e'.1 → m.poolName e'.1 = some e.2 →
        e'.1 ∈ inc.oldPools := by
    intro e he
    rw [h2, found_named_iff hs he]
    · grind
    · intro e' he' heq
      have hfst := hd e'.1 e.1 e.2 (heq ▸ hmem e' he') (hmem e he)
      exact Prod.ext hfst heq
  have hkept : ∀ p n, (∀ e ∈ inc.newPoolNames.entries, e.1 ≠ p) → m2.poolName p = some n →
      (m2.namePool n = some p ↔ (n = "" → ∀ q ∈ inc.oldPools, m.poolName q ≠ none)) := by
    intro p n hp hn
    have hn0 : p ∉ inc.oldPools ∧ m.poolName p = some n := by grind
    rw [h2, foldl_setName_namePool hs, h1, (foldl_setPool_names _).2,
      foldl_dropPool_namePool inc.oldPools_sorted]
    · grind [Indexed, h.distinct]
    · intro d hdrop hdn
      exact hn0.1 (h.distinct p d n hn0.2 hdn ▸ hdrop)
    · rintro e he rfl
      exact hp e he (hd _ _ _ (hmem e he) hn)
  constructor
  · intro hindexed
    constructor
    · intro e he
      exact (hnamed e he).mp ((hindexed _ _).mpr (hmem e he))
    · intro p hold hp hkeep
      have hn : m2.poolName p = some "" := by rw [hother p hkeep, hname, if_neg hold, hp]
      exact (hkept p "" hkeep hn).mp ((hindexed _ _).mpr hn) rfl
  · intro hapart n p
    refine ⟨?_, ?_⟩
    · rw [h2]
      exact foldl_setName_sound hsound n p
    intro hp
    by_cases hkeep : ∀ e ∈ inc.newPoolNames.entries, e.1 ≠ p
    · rw [hkept p n hkeep hp]
      rintro rfl
      rw [hother p hkeep, hname] at hp
      split_ifs at hp with hold
      exact hapart.drops p hold hp hkeep
    · push Not at hkeep
      obtain ⟨e, he, rfl⟩ := hkeep
      obtain rfl : e.2 = n := Option.some.inj ((hmem e he).symm.trans hp)
      exact (hnamed e he).mpr (hapart.renames e he)

/-- Names that end up distinct are indexed after an incremental exactly if its edits do not get
in each other's way. -/
theorem applyIncremental_indexed_iff {inc : Incremental Pool} {r : ℤ} {m' : PoolMap Pool}
    (h : m.Indexed) (hrun : m.applyIncremental inc = some (r, m')) (hd : m'.Distinct) :
    m'.Indexed ↔
      (inc.epoch = 1 ∨ inc.fsid = m.fsid → inc.fullmap = none → m.Apart inc) := by
  unfold applyIncremental at hrun
  split_ifs at hrun with hfsid hepoch
  · cases hrun
    exact iff_of_true h fun hkept => absurd hkept (by tauto)
  cases hfull : inc.fullmap with
  | some full =>
    simp only [hfull, Option.some.injEq, Prod.mk.injEq] at hrun
    obtain ⟨rfl, rfl⟩ := hrun
    refine iff_of_true ?_ (by simp)
    intro n p
    refine (indexOf_eq_some ?_).trans find?_eq_some_iff.symm
    rintro ⟨p, n⟩ he ⟨q, _⟩ he' rfl
    rw [hd p q n (find?_of_mem he) (find?_of_mem he')]
  | none =>
    simp only [hfull, Option.some.injEq, Prod.mk.injEq] at hrun
    obtain ⟨rfl, rfl⟩ := hrun
    rw [foldl_indexed_iff (m := { m with fsid := inc.fsid, epoch := m.epoch + 1 }) h inc rfl rfl hd]
    have hkept : inc.epoch = 1 ∨ inc.fsid = m.fsid := by tauto
    simp only [hkept, forall_const]
    exact ⟨fun ha => ⟨ha.1, ha.2⟩, fun ha => ⟨ha.1, ha.2⟩⟩

def twoPools : PoolMap Unit where
  fsid := 7
  epoch := 4
  pools := fun p => if p = 1 ∨ p = 2 then some (3, ()) else none
  poolName := fun p => if p = 1 then some "data" else if p = 2 then some "metadata" else none
  namePool := fun n => if n = "data" then some 1 else if n = "metadata" then some 2 else none

def rename (first second : String) : Incremental Unit where
  fsid := 7
  epoch := 5
  fullmap := none
  oldPools := []
  newPools := ∅
  newPoolNames := ⟨[(1, first), (2, second)], by simp⟩
  oldPools_sorted := Pairwise.nil

theorem twoPools_indexed : twoPools.Indexed := by
  intro n p
  simp only [twoPools]
  grind

theorem distinct_rename {first second} (hne : first ≠ second) {r : ℤ} {m}
    (hrun : twoPools.applyIncremental (rename first second) = some (r, m)) : m.Distinct := by
  cases hrun
  intro p q n
  simp only [rename, foldl_cons, foldl_nil, setName_poolName, entries_empty, twoPools]
  grind

/-- The second pool takes the name that the first has given up. -/
theorem applyIncremental_indexed_iff_rename :
    ∃ m', twoPools.applyIncremental (rename "old" "data") = some (0, m') ∧ m'.Indexed := by
  obtain ⟨m', hrun⟩ : ∃ m', twoPools.applyIncremental (rename "old" "data") = some (0, m') :=
    ⟨_, rfl⟩
  refine ⟨m', hrun, (applyIncremental_indexed_iff twoPools_indexed hrun
    (distinct_rename (by decide) hrun)).mpr fun _ _ => ⟨by decide, by simp [rename]⟩⟩

/-- The pools exchange their names: the index loses the first of them. -/
theorem applyIncremental_exchange : twoPools.Indexed ∧
    ∃ m', twoPools.applyIncremental (rename "metadata" "data") = some (0, m') ∧ m'.Distinct ∧
      m'.poolName 1 = some "metadata" ∧ m'.namePool "metadata" = none :=
  ⟨twoPools_indexed, _, rfl, distinct_rename (by decide) rfl, rfl, rfl⟩

end PoolMap

end CephDokan.Osd
