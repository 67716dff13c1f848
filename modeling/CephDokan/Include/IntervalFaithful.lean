import CephDokan.Include.IntervalAlgebra

/-!
# interval_set is a set of numbers

`span_of` takes the first so many numbers of a set from a start on. With it, every operation is
described by what it does to the covered numbers, and every set that the operations can make out
of empty ones is well formed.
-/

namespace CephDokan.IntervalSet

open Fallible Intervals List Set

variable {s other : IntervalSet}

/-! ### The first numbers of a set -/

/-- `R` is an initial part of `S` with `n` numbers in it, or all of `S` if there are fewer. -/
structure FirstOf (R S : Set ℕ) (size n : ℕ) : Prop where
  subset : R ⊆ S
  initial : ∀ u ∈ S, ∀ v ∈ R, u ≤ v → u ∈ R
  enough : size = n ∨ size ≤ n ∧ R = S

variable {len start : ℕ}

theorem Ok.spanLoop_spec (h : Ok s) {ps} (hps : Canonical ps)
    (hbound : ∀ e ∈ ps, e.1 + e.2 < 2 ^ 64)
    (hbehind : ∀ v, Covers s.m.entries v → ∀ e ∈ ps, v < e.1) (hlen : len < 2 ^ 64)
    (hfew : total s.m.entries + total ps < 2 ^ 63) :
    ∃ s', spanLoop ps s len = .ok s' ∧ Ok s'
      ∧ FirstOf s'.covered (s.covered ∪ {v | Covers ps v}) (total s'.m.entries)
        (total s.m.entries + len) := by
  induction ps generalizing s len with
  | nil =>
    refine ⟨s, rfl, h, subset_union_left, ?_, .inr ⟨Nat.le_add_right _ _, ?_⟩⟩
    · rintro u (hu | hu) v hv -
      · exact hu
      · exact absurd hu (covers_nil u)
    · have hnone : {v | Covers [] v} = (∅ : Set ℕ) := eq_empty_iff_forall_notMem.mpr covers_nil
      rw [hnone, union_empty]
  | cons p ps ih =>
    have hpos := hps.head_pos
    have hp := hbound p mem_cons_self
    rw [total_cons] at hfew
    rw [spanLoop]
    by_cases hmore : len > 0
    · rw [if_pos hmore]
      by_cases hshort : p.2 < len
      · -- the whole interval, and the rest from the next ones
        obtain ⟨s1, hrun, hok, hcovers, htotal⟩ :=
          h.insert_spec hpos hp (by omega) fun v hle _ hin => by
            have := hbehind v hin p mem_cons_self
            omega
        have hnext : ∀ v, Covers s1.m.entries v → ∀ e ∈ ps, v < e.1 := by
          intro v hv e he
          have hpe := hps.head_lt e he
          rcases (hcovers v).mp hv with hv | hv
          · exact hbehind v hv e (mem_cons_of_mem _ he)
          · omega
        obtain ⟨s2, hrun2, hok2, hfirst⟩ := ih hok hps.tail
          (fun e he => hbound e (mem_cons_of_mem _ he)) hnext
          (show len - p.2 < 2 ^ 64 by omega) (by omega)
        have hsame : s1.covered ∪ {v | Covers ps v} = s.covered ∪ {v | Covers (p :: ps) v} := by
          ext v
          simp only [mem_union, mem_covered, mem_ofPred_eq, hcovers, covers_cons, or_assoc]
        have hcount : total s1.m.entries + (len - p.2) = total s.m.entries + len := by omega
        rw [hsame, hcount] at hfirst
        refine ⟨s2, ?_, hok2, hfirst⟩
        rw [if_pos hshort, hrun, ok_bind, sub64_of_le hshort.le (by omega), hrun2]
      · -- the last piece
        have hend : p.1 + len < 2 ^ 64 := by omega
        obtain ⟨s1, hrun, hok, hcovers, htotal⟩ :=
          h.insert_spec hmore hend (by omega) fun v hle _ hin => by
            have := hbehind v hin p mem_cons_self
            omega
        rw [if_neg hshort]
        refine ⟨s1, hrun, hok, ?_, ?_, .inl htotal⟩
        · intro v hv
          rcases (hcovers v).mp hv with hv | hv
          · exact .inl hv
          · exact .inr ((covers_cons p ps v).mpr (.inl (by omega)))
        · intro u hu v hv huv
          rcases hu with hu | hu
          · exact (hcovers u).mpr (.inl hu)
          have hpu : p.1 ≤ u := by
            rcases (covers_cons p ps u).mp hu with hu | hu
            · exact hu.1
            · have := hps.lt_of_covers hu
              omega
          rcases (hcovers v).mp hv with hv | hv
          · have := hbehind v hv p mem_cons_self
            omega
          · exact (hcovers u).mpr (.inr (by omega))
    · rw [if_neg hmore]
      refine ⟨s, rfl, h, subset_union_left, ?_, .inl (by omega)⟩
      intro u hu v hv huv
      rcases hu with hu | ⟨e, he, hle, -⟩
      · exact hu
      · have := hbehind v hv e he
        omega

/-- The loop runs over the entries that are not passed, the first of them cut off at the start. -/
theorem Ok.spanOf_eq (h : Ok other) (hlen : 0 < len) (hbound : start + len < 2 ^ 64) :
    ∃ ps, spanOf other start len = spanLoop ps empty len ∧ Canonical ps
      ∧ (∀ e ∈ ps, e.1 + e.2 < 2 ^ 64)
      ∧ ∀ v, Covers ps v ↔ Covers other.m.entries v ∧ start ≤ v := by
  obtain ⟨bs, as, hsplit, hbs, has, hfind⟩ := h.findInc_spec start
  have hcanon := h.canonical
  have hbounded := h.bounded
  rw [hsplit] at hcanon hbounded
  have hfrom (v : ℕ) : Covers other.m.entries v ∧ start ≤ v ↔ Covers as v ∧ start ≤ v := by
    rw [hsplit, covers_append]
    refine and_congr_left fun hle => or_iff_right ?_
    rintro ⟨b, hb, -, hlt⟩
    have := hbs b hb
    omega
  simp only [hfrom]
  rw [spanOf, hfind]
  cases as with
  | nil => exact ⟨[], rfl, canonical_nil, forall_mem_nil _, by simp⟩
  | cons p as =>
    obtain ⟨k, n⟩ := p
    have hreach : start < k + n := has (k, n) mem_cons_self
    have hasbound : ∀ a ∈ (k, n) :: as, a.1 + a.2 < 2 ^ 64 := fun a ha =>
      hbounded a (mem_append_right _ ha)
    obtain ⟨hkbound, hrest⟩ := forall_mem_cons.mp hasbound
    have hkend : endOf (k, n) = k + n := u64_of_lt hkbound
    have hafter {v : ℕ} (hv : Covers as v) : k + n < v := hcanon.right.lt_of_covers hv
    obtain ⟨hbehind, hon⟩ := filter_behind hsplit
    dsimp only [head?_cons]
    rw [hkend, u64_of_lt (n := start + len) (by omega), hbehind, hon]
    by_cases hk : k < start
    · have hmuch : sub64 n (sub64 start k) = k + n - start := by
        rw [sub64_of_le (a := start) hk.le (by omega), sub64_of_le (by omega) (by omega)]
        omega
      refine ⟨(start, k + n - start) :: as, ?_, .cons (by dsimp only; omega) (fun a ha => ?_)
        hcanon.right.tail, forall_mem_cons.mpr ⟨by dsimp only; omega, hrest⟩, fun v => ?_⟩
      · rw [if_pos hk, if_neg (by omega), hmuch, spanLoop, if_pos hlen]
        exact if_congr (by dsimp only; omega) rfl rfl
      · have := hcanon.right.head_lt a ha
        omega
      · simp only [covers_cons]
        grind
    · refine ⟨(k, n) :: as, if_neg hk, hcanon.right, hasbound, fun v => ?_⟩
      simp only [covers_cons]
      grind

theorem Ok.spanOf_spec (h : Ok other) (hlen : 0 < len) (hbound : start + len < 2 ^ 64) :
    ∃ s, spanOf other start len = .ok s ∧ Ok s
      ∧ FirstOf s.covered (other.covered ∩ Ici start) (total s.m.entries) len := by
  obtain ⟨ps, hloop, hps, hend, hcovers⟩ := h.spanOf_eq hlen hbound
  have hless : total ps ≤ other.covered.ncard :=
    hps.total_le (Canonical.finite_covers _) fun v hv => ((hcovers v).mp hv).1
  have hfew : other.covered.ncard < 2 ^ 63 := h.canonical.ncard_covers.trans_lt h.few
  obtain ⟨s, hrun, hok, hfirst⟩ := empty_ok.spanLoop_spec hps hend
    (fun v hv => absurd hv (covers_nil v)) (show len < 2 ^ 64 by omega)
    ((Nat.zero_add _).trans_lt (hless.trans_lt hfew))
  have hsame : empty.covered ∪ {v | Covers ps v} = other.covered ∩ Ici start := by
    ext v
    exact (or_iff_right (covers_nil v)).trans (hcovers v)
  have hzero : total empty.m.entries + len = len := Nat.zero_add len
  rw [hsame, hzero] at hfirst
  exact ⟨s, hloop.trans hrun, hok, hfirst⟩

/-! ### All sets that the operations make -/

/-- What the operations make of empty sets, when a range that is inserted is new and a range that is
removed is there. Ranges are not empty and end below `2 ^ 64`, and no set gets as many as `2 ^ 63`
numbers. -/
inductive Reachable : IntervalSet → Prop
  | empty : Reachable empty
  | insert {s s' : IntervalSet} {start len : ℕ} (hs : Reachable s) (hlen : 0 < len)
      (hbound : start + len < 2 ^ 64) (hfew : s.size + len < 2 ^ 63)
      (hnew : Disjoint s.covered (Ico start (start + len)))
      (hrun : s.insert start len = .ok s') : Reachable s'
  | erase {s s' : IntervalSet} {start len : ℕ} (hs : Reachable s) (hlen : 0 < len)
      (hthere : Set.Ico start (start + len) ⊆ s.covered)
      (hrun : s.erase start len = .ok s') : Reachable s'
  | insertAll {s a s' : IntervalSet} (hs : Reachable s) (ha : Reachable a)
      (hnew : Disjoint s.covered a.covered) (hfew : (s.covered ∪ a.covered).ncard < 2 ^ 63)
      (hrun : s.insertAll a = .ok s') : Reachable s'
  | subtract {s a s' : IntervalSet} (hs : Reachable s) (ha : Reachable a)
      (hthere : a.covered ⊆ s.covered) (hrun : s.subtract a = .ok s') : Reachable s'
  | intersectionOf {a b s : IntervalSet} (ha : Reachable a) (hb : Reachable b)
      (hrun : intersectionOf a b = .ok s) : Reachable s
  | unionOf {a b s : IntervalSet} (ha : Reachable a) (hb : Reachable b)
      (hfew : (a.covered ∪ b.covered).ncard < 2 ^ 63)
      (hrun : unionOf a b = .ok s) : Reachable s
  | spanOf {a s : IntervalSet} {start len : ℕ} (ha : Reachable a) (hlen : 0 < len)
      (hbound : start + len < 2 ^ 64) (hrun : spanOf a start len = .ok s) : Reachable s

theorem Ok.insert_covered (h : Ok s) (hlen : 0 < len) (hbound : start + len < 2 ^ 64)
    (hfew : s.size + len < 2 ^ 63) (hnew : Disjoint s.covered (Ico start (start + len))) :
    ∃ s', s.insert start len = .ok s' ∧ Ok s'
      ∧ s'.covered = s.covered ∪ Ico start (start + len) := by
  have hroom : total s.m.entries + len < 2 ^ 63 := by
    rw [h.size_eq] at hfew
    omega
  obtain ⟨s', hrun, hok, hcovers, -⟩ := h.insert_spec hlen hbound hroom fun v hle hlt hin =>
    disjoint_left.mp hnew hin ⟨hle, hlt⟩
  exact ⟨s', hrun, hok, ext hcovers⟩

theorem Ok.erase_covered (h : Ok s) (hlen : 0 < len)
    (hthere : Set.Ico start (start + len) ⊆ s.covered) : ∃ s', s.erase start len = .ok s' ∧ Ok s'
      ∧ s'.covered = s.covered \ Ico start (start + len) := by
  obtain ⟨s', hrun, hok, hcovers⟩ := h.erase_spec hlen fun v hle hlt => hthere ⟨hle, hlt⟩
  exact ⟨s', hrun, hok, ext hcovers⟩

theorem ok_of_returns {x : Run IntervalSet} {s'} {P : IntervalSet → Prop}
    (h : ∃ r, x = .ok r ∧ Ok r ∧ P r) (hrun : x = .ok s') : Ok s' := by
  obtain ⟨r, hr, hok, -⟩ := h
  rw [hrun, Except.ok.injEq] at hr
  rwa [hr]

theorem Reachable.ok (h : Reachable s) : Ok s := by
  induction h with
  | empty => exact empty_ok
  | insert _ hlen hbound hfew hnew hrun ih =>
    exact ok_of_returns (ih.insert_covered hlen hbound hfew hnew) hrun
  | erase _ hlen hthere hrun ih => exact ok_of_returns (ih.erase_covered hlen hthere) hrun
  | insertAll _ _ hnew hfew hrun ihs iha =>
    exact ok_of_returns (ihs.insertAll_spec iha hnew hfew) hrun
  | subtract _ _ hthere hrun ihs iha => exact ok_of_returns (ihs.subtract_spec iha hthere) hrun
  | intersectionOf _ _ hrun iha ihb => exact ok_of_returns (iha.intersectionOf_spec ihb) hrun
  | unionOf _ _ hfew hrun iha ihb => exact ok_of_returns (iha.unionOf_spec ihb hfew) hrun
  | spanOf _ hlen hbound hrun ih => exact ok_of_returns (ih.spanOf_spec hlen hbound) hrun

theorem Ok.eq_iff {a} (h : Ok s) (ha : Ok a) : s = a ↔ s.covered = a.covered := by
  constructor
  · intro heq
    rw [heq]
  · intro hsame
    have hentries := h.canonical.eq_of_covers ha.canonical (fun v => Set.ext_iff.mp hsame v)
    have hsize := h.size_eq
    rw [hentries, ← ha.size_eq] at hsize
    have hm : s.m = a.m := SortedMap.ext hentries
    cases s
    cases a
    cases hm
    cases hsize
    rfl

/-- A set made by the operations is in canonical form and counted, and every operation on it returns
and is the operation on the numbers it covers. -/
theorem faithful_of_reachable (h : Reachable s) :
    Canonical s.m.entries ∧ s.size = total s.m.entries
    ∧ (∀ start len, 0 < len → start + len < 2 ^ 64 →
      (∃ r, s.containsValue start = .ok r ∧ (r = true ↔ start ∈ s.covered))
      ∧ (∃ r, s.contains start len = .ok r
        ∧ (r = true ↔ Set.Ico start (start + len) ⊆ s.covered))
      ∧ (∃ r, s.intersects start len = .ok r
        ∧ (r = true ↔ (s.covered ∩ Ico start (start + len)).Nonempty))
      ∧ (Disjoint s.covered (Ico start (start + len)) → s.size + len < 2 ^ 63 →
        ∃ s', s.insert start len = .ok s'
          ∧ Reachable s' ∧ s'.covered = s.covered ∪ Set.Ico start (start + len))
      ∧ (Set.Ico start (start + len) ⊆ s.covered → ∃ s', s.erase start len = .ok s'
        ∧ Reachable s' ∧ s'.covered = s.covered \ Set.Ico start (start + len))
      ∧ ∃ s', spanOf s start len = .ok s' ∧ Reachable s'
        ∧ FirstOf s'.covered (s.covered ∩ Ici start) s'.covered.ncard len)
    ∧ ∀ a, Reachable a →
      (∃ s', intersectionOf s a = .ok s' ∧ Reachable s' ∧ s'.covered = s.covered ∩ a.covered)
      ∧ ((s.covered ∪ a.covered).ncard < 2 ^ 63 → ∃ s', unionOf s a = .ok s'
        ∧ Reachable s' ∧ s'.covered = s.covered ∪ a.covered)
      ∧ (a.covered ⊆ s.covered → ∃ s', s.subtract a = .ok s'
        ∧ Reachable s' ∧ s'.covered = s.covered \ a.covered)
      ∧ (Disjoint s.covered a.covered → (s.covered ∪ a.covered).ncard < 2 ^ 63 →
        ∃ s', s.insertAll a = .ok s' ∧ Reachable s' ∧ s'.covered = s.covered ∪ a.covered)
      ∧ (∃ r, s.subsetOf a = .ok r ∧ (r = true ↔ s.covered ⊆ a.covered))
      ∧ (s = a ↔ s.covered = a.covered) := by
  have hs := h.ok
  refine ⟨hs.canonical, hs.size_eq, fun start len hlen hbound => ?_, fun a hreach => ?_⟩
  · refine ⟨hs.containsValue_spec (by omega), ?_, hs.intersects_spec hlen hbound, ?_, ?_, ?_⟩
    · obtain ⟨r, hrun, hiff⟩ := hs.contains_spec hlen hbound
      refine ⟨r, hrun, hiff.trans ⟨fun hall v hv => hall v hv.1 hv.2, fun hsub v hle hlt => ?_⟩⟩
      exact hsub ⟨hle, hlt⟩
    · intro hnew hfew
      obtain ⟨s', hrun, -, hcovered⟩ := hs.insert_covered hlen hbound hfew hnew
      exact ⟨s', hrun, .insert h hlen hbound hfew hnew hrun, hcovered⟩
    · intro hthere
      obtain ⟨s', hrun, -, hcovered⟩ := hs.erase_covered hlen hthere
      exact ⟨s', hrun, .erase h hlen hthere hrun, hcovered⟩
    · obtain ⟨s', hrun, hok, hfirst⟩ := hs.spanOf_spec hlen hbound
      rw [← hok.canonical.ncard_covers] at hfirst
      exact ⟨s', hrun, .spanOf h hlen hbound hrun, hfirst⟩
  · have ha := hreach.ok
    refine ⟨?_, fun hfew => ?_, fun hthere => ?_, fun hnew hfew => ?_,
      ha.allContained_spec hs.canonical hs.bounded, hs.eq_iff ha⟩
    · obtain ⟨s', hrun, -, hcovered⟩ := hs.intersectionOf_spec ha
      exact ⟨s', hrun, .intersectionOf h hreach hrun, hcovered⟩
    · obtain ⟨s', hrun, -, hcovered⟩ := hs.unionOf_spec ha hfew
      exact ⟨s', hrun, .unionOf h hreach hfew hrun, hcovered⟩
    · obtain ⟨s', hrun, -, hcovered⟩ := hs.subtract_spec ha hthere
      exact ⟨s', hrun, .subtract h hreach hthere hrun, hcovered⟩
    · obtain ⟨s', hrun, -, hcovered⟩ := hs.insertAll_spec ha hnew hfew
      exact ⟨s', hrun, .insertAll h hreach hnew hfew hrun, hcovered⟩

theorem Reachable.add (hs : Reachable s) {s'} (start len : ℕ)
    (hnew : ∀ e ∈ s.m.entries, e.1 + e.2 ≤ start ∨ start + len ≤ e.1)
    (hlen : 0 < len ∧ start + len < 2 ^ 64 ∧ s.size + len < 2 ^ 63)
    (hrun : s.insert start len = .ok s') : Reachable s' := by
  refine .insert hs hlen.1 hlen.2.1 hlen.2.2 (Set.disjoint_left.mpr ?_) hrun
  rintro v ⟨e, he, hv⟩ ⟨hle, hlt⟩
  have := hnew e he
  omega

/-- `[5~5]`. -/
def five : IntervalSet := ⟨5, [(5, 5)], by decide⟩

theorem five_reachable : Reachable five := .add .empty 5 5 (by decide) (by decide) rfl

/-- `[5~2, 8~2, 12~3]`. -/
def threeRuns : IntervalSet := ((twoRuns.erase 7 1).toOption).getD empty

theorem threeRuns_reachable : Reachable threeRuns := by
  have htwo : Reachable twoRuns := .add five_reachable 12 3 (by decide) (by decide) rfl
  have hthere : Set.Ico 7 (7 + 1) ⊆ twoRuns.covered := by
    rintro v ⟨hle, hlt⟩
    exact ⟨(5, 5), mem_cons_self, by dsimp only; omega⟩
  exact .erase htwo (by decide) hthere (eq_ok_getD empty (by decide +kernel))

/-- A range that closes a gap, a span over one, and a union with an interval that overlaps two. -/
theorem threeRuns_faithful :
    Reachable threeRuns ∧ Canonical threeRuns.m.entries
    ∧ threeRuns.size = total threeRuns.m.entries
    ∧ (∃ s', threeRuns.insert 10 2 = .ok s' ∧ Reachable s'
      ∧ s'.covered = threeRuns.covered ∪ Set.Ico 10 (10 + 2))
    ∧ (∃ s', spanOf threeRuns 6 4 = .ok s' ∧ Reachable s'
      ∧ FirstOf s'.covered (threeRuns.covered ∩ Ici 6) s'.covered.ncard 4)
    ∧ ∃ s', unionOf threeRuns five = .ok s' ∧ Reachable s'
      ∧ s'.covered = threeRuns.covered ∪ five.covered := by
  have hthree := threeRuns_reachable
  have hfive := five_reachable
  obtain ⟨hcanonical, hsize, hranges, hsets⟩ := faithful_of_reachable hthree
  obtain ⟨-, -, -, hinsert, -, -⟩ := hranges 10 2 (by decide) (by decide)
  obtain ⟨-, -, -, -, -, hspan⟩ := hranges 6 4 (by decide) (by decide)
  obtain ⟨-, hunion, -⟩ := hsets five hfive
  have hfew : (threeRuns.covered ∪ five.covered).ncard < 2 ^ 63 := by
    refine (Set.ncard_union_le _ _).trans_lt ?_
    rw [covered, covered, hcanonical.ncard_covers, hfive.ok.canonical.ncard_covers]
    decide +kernel
  refine ⟨hthree, hcanonical, hsize, hinsert (Set.disjoint_left.mpr ?_) (by decide +kernel), hspan,
    hunion hfew⟩
  have hnew : ∀ e ∈ threeRuns.m.entries, e.1 + e.2 ≤ 10 ∨ 12 ≤ e.1 := by decide +kernel
  rintro v ⟨e, he, hv⟩ ⟨hle, hlt⟩
  have := hnew e he
  omega

/-- What is taken out of a set and put in again leaves the very same map. -/
theorem insertAll_subtract (hs : Reachable s) (ho : Reachable other)
    (hsub : other.covered ⊆ s.covered) :
    ∃ rest, s.subtract other = .ok rest ∧ rest.insertAll other = .ok s := by
  obtain ⟨rest, hrun, hrest, hcovered⟩ := hs.ok.subtract_spec ho.ok hsub
  have hwhole : rest.covered ∪ other.covered = s.covered := by
    rw [hcovered, sdiff_union_of_subset hsub]
  have hfew : (rest.covered ∪ other.covered).ncard < 2 ^ 63 := by
    rw [hwhole]
    exact hs.ok.canonical.ncard_covers.trans_lt hs.ok.few
  obtain ⟨s', hrun', hs', hback⟩ :=
    hrest.insertAll_spec ho.ok (hcovered ▸ disjoint_sdiff_left) hfew
  rw [hwhole, ← hs'.eq_iff hs.ok] at hback
  exact ⟨rest, hrun, hback ▸ hrun'⟩

/-- `[5~1, 8~2, 13~1]`: a part of each interval, and one whole. -/
def pieces : IntervalSet := ⟨4, [(5, 1), (8, 2), (13, 1)], by decide⟩

theorem insertAll_subtract_pieces :
    ∃ rest, threeRuns.subtract pieces = .ok rest ∧ rest.insertAll pieces = .ok threeRuns := by
  have hone : Reachable ⟨1, [(5, 1)], by decide⟩ := .add .empty 5 1 (by decide) (by decide) rfl
  have htwo : Reachable ⟨3, [(5, 1), (8, 2)], by decide⟩ :=
    .add hone 8 2 (by decide) (by decide) rfl
  have hpieces : Reachable pieces := .add htwo 13 1 (by decide) (by decide) rfl
  apply insertAll_subtract threeRuns_reachable hpieces
  have hinside : ∀ e ∈ pieces.m.entries, ∃ f ∈ threeRuns.m.entries,
      f.1 ≤ e.1 ∧ e.1 + e.2 ≤ f.1 + f.2 := by decide +kernel
  rintro v ⟨e, he, hv⟩
  obtain ⟨f, hf, hin⟩ := hinside e he
  exact ⟨f, hf, by omega⟩

def outcome (x : Run IntervalSet) : Run (ℤ × List (ℕ × ℕ)) := x.map fun s => (s.size, s.m.entries)

/-- Removing an empty range cuts an interval in two that touch, or fails an assertion where there is
no interval; an empty range cannot be asked for. The number `2 ^ 64 - 1` is not found once it is
in, and `2 ^ 63` numbers make the size negative. -/
theorem empty_and_large_ranges :
    outcome (five.erase 7 0) = .ok (5, [(5, 2), (7, 3)])
    ∧ outcome (five.erase 20 0) = .error .assertion
    ∧ five.intersects 7 0 = .error .assertion
    ∧ (empty.insert (2 ^ 64 - 1) 1).bind (fun s => s.containsValue (2 ^ 64 - 1)) = .ok false
    ∧ outcome (empty.insert 0 (2 ^ 63)) = .ok (-2 ^ 63, [(0, 2 ^ 63)]) := by
  decide +kernel

end CephDokan.IntervalSet
