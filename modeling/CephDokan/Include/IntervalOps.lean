import CephDokan.Include.IntervalSet
import CephDokan.Lib.Intervals

/-!
# Single operations of interval_set

A set is well formed when its map is a canonical list of intervals that end below `2 ^ 64`, so that
no sum of a start and a length wraps, and the size counts fewer than `2 ^ 63` numbers. Each
operation is described by the numbers that are covered afterwards.
-/

namespace CephDokan.IntervalSet

open Fallible Intervals List SortedMap

/-- Canonical, counted, and within what the types hold. -/
structure Ok (s : IntervalSet) : Prop where
  canonical : Canonical s.m.entries
  bounded : ∀ e ∈ s.m.entries, e.1 + e.2 < 2 ^ 64
  few : total s.m.entries < 2 ^ 63
  size_eq : s.size = total s.m.entries

def covered (s : IntervalSet) : Set ℕ := {v | Covers s.m.entries v}

theorem mem_covered (s : IntervalSet) (v : ℕ) : v ∈ s.covered ↔ Covers s.m.entries v := Iff.rfl

theorem empty_ok : Ok empty := ⟨canonical_nil, forall_mem_nil _, by decide, rfl⟩

variable {n : ℕ}

theorem s64_of_lt (h : n < 2 ^ 63) : s64 n = n := by
  apply Int.bmod_eq_of_le <;> omega

namespace Ok

variable {s : IntervalSet} (h : Ok s) {e : ℕ × ℕ}

include h in
theorem endOf_eq (he : e ∈ s.m.entries) : endOf e = e.1 + e.2 :=
  u64_of_lt (h.bounded e he)

/-! ### Searching -/

include h in
/-- The entries that are passed come first, and the search ends at the first of the others. -/
theorem find_spec (start : ℕ) (passed : ℕ → Bool) (hlow : ∀ e < start, passed e = true)
    (hhigh : ∀ e > start, passed e = false) :
    ∃ bs as, s.m.entries = bs ++ as ∧ (∀ b ∈ bs, passed (b.1 + b.2) = true)
      ∧ (∀ a ∈ as, passed (a.1 + a.2) = false) ∧ s.find start passed = as.head? := by
  obtain ⟨bs, as, hsplit, hbs, has⟩ := s.m.exists_split_at start
  have hcanon := h.canonical
  rw [hsplit] at hcanon
  have hfilter : (s.m.entries.filter fun e => e.1 < start) = bs := by
    rw [hsplit, filter_append, filter_eq_self.mpr (by simpa using hbs),
      filter_eq_nil_iff.mpr (by simpa using has), append_nil]
  have hfind : (s.m.entries.find? fun e => start ≤ e.1) = as.head? := by
    rw [hsplit, ← head?_filter, filter_append, filter_eq_nil_iff.mpr (by simpa using hbs),
      filter_eq_self.mpr (by simpa using has), nil_append]
  have hafter : ∀ a ∈ as, passed (a.1 + a.2) = false := by
    intro a ha
    have hstart := has a ha
    have hpos := hcanon.right.pos a ha
    exact hhigh _ (by omega)
  rw [find, hfilter, hfind]
  rcases eq_nil_or_concat bs with rfl | ⟨bs, q, rfl⟩
  · exact ⟨[], as, hsplit, forall_mem_nil _, hafter, rfl⟩
  rw [concat_eq_append] at hsplit hcanon hbs ⊢
  have hq := hbs q (mem_append_right _ mem_cons_self)
  have hqend : endOf q = q.1 + q.2 := by
    apply h.endOf_eq
    rw [hsplit]
    exact mem_append_left _ (mem_append_right _ mem_cons_self)
  have hbefore : ∀ b ∈ bs, passed (b.1 + b.2) = true := by
    intro b hb
    have hbq := hcanon.left.between b hb q mem_cons_self
    exact hlow _ (by omega)
  rw [getLast?_concat]
  dsimp only
  rw [hqend]
  by_cases hpassed : passed (q.1 + q.2) = true
  · refine ⟨bs ++ [q], as, hsplit, fun b hb => ?_, hafter, if_neg fun hc => hc.2 hpassed⟩
    rcases mem_append.mp hb with hb | hb
    · exact hbefore b hb
    · rw [mem_singleton.mp hb]
      exact hpassed
  · -- the entry before `start` reaches it, so the next one starts behind it
    have hreach : start ≤ q.1 + q.2 := by
      by_contra hshort
      exact hpassed (hlow _ (by omega))
    have hnext : ∀ e ∈ as.head?, e.1 > start := by
      intro e he
      have hqe := hcanon.between q (mem_append_right _ mem_cons_self) e
        (mem_of_mem_head? he)
      omega
    refine ⟨bs, q :: as, by rw [hsplit, append_assoc, singleton_append], hbefore, ?_,
      if_pos ⟨hnext, hpassed⟩⟩
    intro a ha
    rcases mem_cons.mp ha with rfl | ha
    · exact Bool.not_eq_true _ ▸ hpassed
    · exact hafter a ha

include h in
theorem findInc_spec (start : ℕ) : ∃ bs as, s.m.entries = bs ++ as ∧ (∀ b ∈ bs, b.1 + b.2 ≤ start)
      ∧ (∀ a ∈ as, start < a.1 + a.2) ∧ s.findInc start = as.head? := by
  simpa [findInc] using h.find_spec start (fun e => e ≤ start) (fun e he => decide_eq_true he.le)
    fun e he => decide_eq_false he.not_ge

include h in
theorem findAdj_spec (start : ℕ) : ∃ bs as, s.m.entries = bs ++ as ∧ (∀ b ∈ bs, b.1 + b.2 < start)
      ∧ (∀ a ∈ as, start ≤ a.1 + a.2) ∧ s.findAdj start = as.head? := by
  simpa [findAdj] using h.find_spec start (fun e => e < start) (fun e he => decide_eq_true he)
    fun e he => decide_eq_false he.not_gt

/-! ### Insertion -/

section

variable {m : SortedMap ℕ ℕ} {bs as : List (ℕ × ℕ)} {k : ℕ}

theorem filter_behind (hm : m.entries = bs ++ (k, n) :: as) :
    (m.entries.filter fun e => k < e.1) = as
      ∧ (m.entries.filter fun e => k ≤ e.1) = (k, n) :: as := by
  have hbs := lt_of_mem_before hm
  have has := lt_of_mem_after hm
  constructor
  · rw [hm, filter_append, filter_eq_nil_iff.mpr (by simpa using fun a b h => (hbs (a, b) h).le),
      nil_append, filter_cons_of_neg (by simp), filter_eq_self.mpr (by simpa using has)]
  · rw [hm, filter_append, filter_eq_nil_iff.mpr (by simpa using hbs), nil_append,
      filter_cons_of_pos (by simp),
      filter_eq_self.mpr (by simpa using fun a b h => (has (a, b) h).le)]

end

variable {len start : ℕ}

include h in
theorem of_covers {s'} (hsize : s'.size = s64 (s.size + len))
    (hcanon : Canonical s'.m.entries) (hbound : ∀ e ∈ s'.m.entries, e.1 + e.2 < 2 ^ 64)
    (htotal : total s'.m.entries = total s.m.entries + len)
    (hfew : total s.m.entries + len < 2 ^ 63) : Ok s' := by
  refine ⟨hcanon, hbound, htotal ▸ hfew, ?_⟩
  rw [hsize, h.size_eq, ← Nat.cast_add, ← htotal, s64_of_lt (htotal ▸ hfew)]

include h in
theorem insert_spec (hlen : 0 < len) (hbound : start + len < 2 ^ 64)
    (hfew : total s.m.entries + len < 2 ^ 63)
    (hdisjoint : ∀ v, start ≤ v → v < start + len → ¬Covers s.m.entries v) :
    ∃ s', s.insert start len = .ok s' ∧ Ok s'
      ∧ (∀ v, Covers s'.m.entries v ↔ Covers s.m.entries v ∨ start ≤ v ∧ v < start + len)
      ∧ total s'.m.entries = total s.m.entries + len := by
  obtain ⟨bs, as, hsplit, hbs, has, hfind⟩ := h.findAdj_spec start
  have hcanon := h.canonical
  have hbounded := h.bounded
  have hend : u64 (start + len) = start + len := u64_of_lt (by omega)
  rw [hsplit] at hcanon hbounded
  rw [insert, assertThat_of hlen, ok_bind, hfind]
  have hbsstart : ∀ b ∈ bs, b.1 < start := by
    intro b hb
    have := hbs b hb
    omega
  -- in every case the map ends up as `bs`, one interval and a part of `as`
  have hdone {m : SortedMap ℕ ℕ} {a c : ℕ} (dropped : List (ℕ × ℕ)) {rest : List (ℕ × ℕ)}
      (hm : m.entries = bs ++ (a, c) :: rest) (hasplit : as = dropped ++ rest)
      (hleft : ∀ b ∈ bs, b.1 + b.2 < a) (hright : ∀ e ∈ rest, a + c < e.1)
      (hac : a + c < 2 ^ 64)
      (hcovers : ∀ v, a ≤ v ∧ v < a + c ↔ Covers dropped v ∨ start ≤ v ∧ v < start + len) :
      ∃ s', (.ok ⟨s64 (s.size + len), m⟩ : Run IntervalSet) = .ok s' ∧ Ok s'
        ∧ (∀ v, Covers s'.m.entries v ↔ Covers s.m.entries v ∨ start ≤ v ∧ v < start + len)
        ∧ total s'.m.entries = total s.m.entries + len := by
    subst hasplit
    have hpos : 0 < c := by
      have := (hcovers start).mpr (.inr ⟨le_rfl, by omega⟩)
      omega
    have hl : Canonical m.entries := hm ▸ hcanon.left.middle hcanon.right.right hpos hleft hright
    have hall : ∀ v, Covers m.entries v ↔ Covers s.m.entries v ∨ start ≤ v ∧ v < start + len := by
      intro v
      rw [hm, hsplit]
      simp only [covers_append, covers_cons, hcovers v]
      tauto
    have htotal : total m.entries = total s.m.entries + len := by
      rw [← hl.ncard_covers, Canonical.ncard_covers_union _ _ _ hdisjoint hall,
        h.canonical.ncard_covers]
    refine ⟨_, rfl, h.of_covers rfl hl (fun e he => ?_) htotal hfew, hall, htotal⟩
    rw [hm] at he
    rcases mem_append.mp he with he | he
    · exact hbounded e (mem_append_left _ he)
    · rcases mem_cons.mp he with rfl | he
      · exact hac
      · exact hbounded e (mem_append_right _ (mem_append_right _ he))
  cases as with
  | nil =>
    have hm : (s.m.insert start len).entries = bs ++ [(start, len)] :=
      insert_split hsplit hbsstart (forall_mem_nil _)
    exact hdone [] hm rfl hbs (forall_mem_nil _) hbound (by simp)
  | cons p as =>
    obtain ⟨k, n⟩ := p
    have hreach : start ≤ k + n := has (k, n) mem_cons_self
    obtain ⟨hkbound, -⟩ := forall_mem_cons.mp fun a ha => hbounded a (mem_append_right _ ha)
    have hbefore : ∀ b ∈ bs, b.1 + b.2 < k := fun b hb =>
      hcanon.between b hb _ mem_cons_self
    have hbehind : ∀ a ∈ as, k + n < a.1 := hcanon.right.head_lt
    have houtside {v : ℕ} (hle : start ≤ v) (hlt : v < start + len) : ¬(k ≤ v ∧ v < k + n) :=
      fun hv => hdisjoint v hle hlt ⟨(k, n), by simp [hsplit], hv⟩
    dsimp only [head?_cons] at hkbound ⊢
    by_cases hk : k < start
    · -- the entry ends where the range starts
      have hkend : k + n = start := by
        have := houtside le_rfl (by omega)
        omega
      have hkendof : endOf (k, n) = start := (u64_of_lt (by dsimp only; omega)).trans hkend
      have hm := modify_split hsplit fun second => u64 (second + len)
      rw [u64_of_lt (n := n + len) (by omega)] at hm
      have hkeep : ∀ v, k ≤ v ∧ v < k + (n + len) ↔
          Covers [(k, n)] v ∨ start ≤ v ∧ v < start + len := by
        intro v
        simp only [covers_cons, covers_nil, or_false]
        omega
      rw [if_pos hk, assertThat_of hkendof, ok_bind, ← head?_filter, (filter_behind hm).1]
      cases as with
      | nil => exact hdone [(k, n)] hm rfl hbefore (forall_mem_nil _) (by omega) hkeep
      | cons q as =>
        obtain ⟨k', n'⟩ := q
        have hkn' : k + n < k' := hbehind _ mem_cons_self
        have hqbound : k' + n' < 2 ^ 64 := hbounded (k', n') (by simp)
        have hqpos : 0 < n' := hcanon.right.tail.head_pos
        -- the next entry does not start inside the range
        have hgap : start + len ≤ k' := by
          by_contra hinside
          exact hdisjoint k' (by omega) (by omega) ⟨(k', n'), by simp [hsplit], le_rfl, by
            dsimp only; omega⟩
        dsimp only [head?_cons]
        rw [hend]
        by_cases hjoin : start + len = k'
        · have hm' := modify_split hm fun second => u64 (second + n')
          rw [u64_of_lt (n := n + len + n') (by omega), ← singleton_append, ← append_assoc] at hm'
          have hm'' := erase_split hm'
          rw [append_assoc, singleton_append] at hm''
          rw [if_pos hjoin]
          apply hdone [(k, n), (k', n')] hm'' rfl hbefore
          · intro a ha
            have := hcanon.right.tail.head_lt a ha
            omega
          · omega
          · intro v
            simp only [covers_cons, covers_nil, or_false]
            omega
        · rw [if_neg hjoin]
          exact hdone [(k, n)] hm rfl hbefore
            (hcanon.right.tail.lt_start (by dsimp only; omega)) (by omega) hkeep
    · have hgap : start + len ≤ k := by
        have := houtside (v := k) (by omega)
        have := hcanon.right.head_pos
        omega
      have hstart : ∀ a ∈ (k, n) :: as, start < a.1 := hcanon.right.lt_start (by dsimp only; omega)
      rw [if_neg hk, hend]
      by_cases hjoin : start + len = k
      · have hm : (s.m.insert start (u64 (len + n))).entries = _ :=
          insert_split hsplit hbsstart hstart
        rw [← singleton_append, ← append_assoc] at hm
        have hm' := erase_split hm
        rw [append_assoc, singleton_append, u64_of_lt (n := len + n) (by omega)] at hm'
        rw [if_pos hjoin, u64_of_lt (n := len + n) (by omega)]
        apply hdone [(k, n)] hm' rfl hbs
        · intro a ha
          have := hbehind a ha
          omega
        · omega
        · intro v
          simp only [covers_cons, covers_nil, or_false]
          omega
      · rw [if_neg hjoin, assertThat_of (show k > start + len by omega), ok_bind]
        exact hdone [] (insert_split hsplit hbsstart hstart) rfl hbs
          (hcanon.right.lt_start (by dsimp only; omega)) hbound (by simp)

include h in
/-- The overlap is seen unless an interval ends where the range starts: to that one it is appended
without a look at the next. -/
theorem insert_overlapping (hlen : 0 < len) (hbound : start + len < 2 ^ 64)
    (hover : ∃ v ∈ Set.Ico start (start + len), v ∈ s.covered) :
    s.insert start len = .error .assertion ↔ ∀ p ∈ s.m.entries, p.1 + p.2 ≠ start := by
  obtain ⟨bs, as, hsplit, hbs, has, hfind⟩ := h.findAdj_spec start
  obtain ⟨v, ⟨hle, hlt⟩, e, he, hv⟩ := hover
  have hcanon := h.canonical
  rw [hsplit] at he hcanon
  have heas : e ∈ as := (mem_append.mp he).resolve_left fun hb => by
    have := hbs e hb
    omega
  rw [insert, assertThat_of hlen, ok_bind, hfind]
  cases as with
  | nil => cases heas
  | cons p as =>
    have hp : p ∈ s.m.entries := by simp [hsplit]
    have hreach := has p mem_cons_self
    have hfirst : p.1 ≤ e.1 := by
      rcases mem_cons.mp heas with rfl | heas
      · exact le_rfl
      · have := hcanon.right.head_lt e heas
        omega
    have honly : (∀ q ∈ s.m.entries, q.1 + q.2 ≠ start) ↔ p.1 + p.2 ≠ start := by
      refine ⟨fun hall => hall p hp, fun hne q hq => ?_⟩
      rw [hsplit] at hq
      rcases mem_append.mp hq with hq | hq
      · exact (hbs q hq).ne
      · rcases mem_cons.mp hq with rfl | hq
        · exact hne
        · have := hcanon.right.head_lt q hq
          omega
    rw [honly]
    dsimp only [head?_cons]
    by_cases hk : p.1 < start
    · rw [if_pos hk, h.endOf_eq hp]
      by_cases hend : p.1 + p.2 = start
      · rw [assertThat_of hend, ok_bind]
        refine iff_of_false ?_ fun hne => hne hend
        split
        · simp
        · split_ifs <;> simp
      · exact iff_of_true (by rw [assertThat, check, if_neg hend]; rfl) hend
    · have hpos := hcanon.right.head_pos
      rw [if_neg hk, u64_of_lt (by omega), if_neg (by omega), assertThat, check, if_neg (by omega)]
      exact iff_of_true rfl (by omega)

/-! ### Removal -/

def piece (a c : ℕ) : List (ℕ × ℕ) := if c ≠ 0 then [(a, c)] else []

variable {a c : ℕ}

theorem mem_piece : e ∈ piece a c ↔ e = (a, c) ∧ 0 < c := by
  rw [piece]
  split_ifs with hc
  · rw [mem_singleton, and_iff_left (Nat.pos_of_ne_zero hc)]
  · exact ⟨(fun he => nomatch he), fun he => absurd he.2.ne' hc⟩

theorem covers_piece (a c v : ℕ) : Covers (piece a c) v ↔ a ≤ v ∧ v < a + c := by
  rw [piece]
  split_ifs with hc
  · rw [covers_cons, or_iff_left (covers_nil v)]
  · rw [not_not.mp hc, iff_false_intro (covers_nil v), false_iff]
    omega

theorem canonical_piece {bs as} (hbs : Canonical bs) (has : Canonical as)
    (hleft : ∀ b ∈ bs, b.1 + b.2 < a) (hright : ∀ e ∈ as, a + c < e.1) :
    Canonical (bs ++ (piece a c ++ as)) := by
  rw [piece]
  split_ifs with hc
  · exact hbs.middle has (Nat.pos_of_ne_zero hc) hleft hright
  · refine hbs.append has fun b hb e he => ?_
    have := hleft b hb
    have := hright e he
    omega

include h in
theorem findInc_run (hlen : 0 < len)
    (hrun : ∀ v, start ≤ v → v < start + len → Covers s.m.entries v) :
    ∃ bs as k n, s.m.entries = bs ++ (k, n) :: as ∧ k ≤ start ∧ start + len ≤ k + n
      ∧ s.findInc start = some (k, n) := by
  obtain ⟨bs, as, hsplit, hbs, has, hfind⟩ := h.findInc_spec start
  obtain ⟨e, he, hle, hend⟩ := h.canonical.exists_of_run hlen hrun
  have hcanon := h.canonical
  rw [hsplit] at he hcanon
  rcases mem_append.mp he with he | he
  · have := hbs e he
    omega
  cases as with
  | nil => cases he
  | cons p as =>
    rcases mem_cons.mp he with rfl | he
    · exact ⟨bs, as, e.1, e.2, hsplit, hle, hend, hfind⟩
    · have hbehind := hcanon.right.head_lt e he
      have hreach := has p mem_cons_self
      omega

include h in
theorem erase_spec (hlen : 0 < len)
    (hrun : ∀ v, start ≤ v → v < start + len → Covers s.m.entries v) :
    ∃ s', s.erase start len = .ok s' ∧ Ok s'
      ∧ ∀ v, Covers s'.m.entries v ↔ Covers s.m.entries v ∧ ¬(start ≤ v ∧ v < start + len) := by
  obtain ⟨bs, as, k, n, hsplit, hk, hend, hfind⟩ := h.findInc_run hlen hrun
  have hcanon := h.canonical
  have hbounded := h.bounded
  rw [hsplit] at hcanon hbounded
  have hkbound : k + n < 2 ^ 64 := hbounded (k, n) (by simp)
  have hbefore : ∀ b ∈ bs, b.1 + b.2 < k := fun b hb => hcanon.between b hb _ mem_cons_self
  have hbehind : ∀ a ∈ as, k + n < a.1 := hcanon.right.head_lt
  -- the entry is cut down to what lies before the range
  obtain ⟨m, hmdef⟩ : ∃ m, m = if start - k ≠ 0 then s.m.modify k fun _ => start - k
      else s.m.erase k := ⟨_, rfl⟩
  have hm : m.entries = (bs ++ piece k (start - k)) ++ as := by
    rw [piece, hmdef]
    split_ifs
    · rw [modify_split hsplit, append_assoc, singleton_append]
    · rw [erase_split hsplit, append_nil]
  have hlow : ∀ e ∈ bs ++ piece k (start - k), e.1 + e.2 ≤ start := by
    intro e he
    rcases mem_append.mp he with he | he
    · have := hbefore e he
      omega
    · obtain ⟨rfl, -⟩ := mem_piece.mp he
      omega
  -- and what lies behind it becomes an entry of its own
  obtain ⟨m', hmdef'⟩ : ∃ m', m' = if k + n - (start + len) ≠ 0
      then m.insert (start + len) (k + n - (start + len)) else m := ⟨_, rfl⟩
  have hm' : m'.entries
      = (bs ++ piece k (start - k)) ++ (piece (start + len) (k + n - (start + len)) ++ as) := by
    rw [hmdef', piece.eq_def (start + len)]
    split_ifs
    · refine insert_split hm (fun e he => ?_) fun a ha => ?_
      · have := hlow e he
        omega
      · have := hbehind a ha
        omega
    · rw [hm, nil_append]
  have hlist : Canonical m'.entries := by
    have hleft := canonical_piece hcanon.left canonical_nil hbefore
      (forall_mem_nil fun e : ℕ × ℕ => k + (start - k) < e.1)
    rw [append_nil] at hleft
    rw [hm']
    apply canonical_piece hleft hcanon.right.tail
    · intro b hb
      have := hlow b hb
      omega
    · intro a ha
      have := hbehind a ha
      omega
  have hin : ∀ e ∈ m'.entries, e.1 + e.2 < 2 ^ 64 := by
    intro e he
    simp only [hm', mem_append, mem_piece] at he
    rcases he with (he | ⟨rfl, -⟩) | ⟨rfl, -⟩ | he
    · exact hbounded e (mem_append_left _ he)
    · omega
    · omega
    · exact hbounded e (mem_append_right _ (mem_cons_of_mem _ he))
  have hcovers : ∀ v, Covers m'.entries v ↔
      Covers s.m.entries v ∧ ¬(start ≤ v ∧ v < start + len) := by
    intro v
    have hfront : Covers bs v → v < k := by
      rintro ⟨b, hb, -, hlt⟩
      have := hbefore b hb
      omega
    have hback : Covers as v → k + n < v := hcanon.right.lt_of_covers
    rw [hm', hsplit]
    simp only [covers_append, covers_cons, covers_piece]
    grind
  have htotal : total s.m.entries = total m'.entries + len := by
    rw [← h.canonical.ncard_covers, ← hlist.ncard_covers]
    refine Canonical.ncard_covers_union _ start len (fun v hle hlt hv => ?_) fun v => ?_
    · exact ((hcovers v).mp hv).2 ⟨hle, hlt⟩
    · have := hcovers v
      tauto
  have hfew : total m'.entries < 2 ^ 63 := by
    have := h.few
    omega
  have hsize : s64 (s.size - len) = total m'.entries := by
    rw [h.size_eq, htotal, Nat.cast_add, add_sub_cancel_right, s64_of_lt hfew]
  refine ⟨⟨s64 (s.size - len), m'⟩, ?_, ⟨hlist, hin, hfew, hsize⟩, hcovers⟩
  have hsub : sub64 start k = start - k := sub64_of_le hk (by omega)
  have hsub' : sub64 (sub64 n (start - k)) len = k + n - (start + len) := by
    rw [sub64_of_le (a := n) (by omega) (by omega), sub64_of_le (by omega) (by omega)]
    omega
  have hfits : n ≥ u64 (start - k + len) := by
    rw [u64_of_lt (by omega)]
    omega
  rw [erase, assertThat_of (by rw [hsize]; exact Int.natCast_nonneg _), ok_bind, hfind]
  dsimp only
  rw [assertThat_of hk, ok_bind, hsub, assertThat_of hfits, ok_bind, hsub',
    u64_of_lt (n := start + len) (by omega), hmdef', hmdef]
  rfl

/-! ### Queries -/

include h in
theorem contains_spec (hlen : 0 < len) (hbound : start + len < 2 ^ 64) :
    ∃ r, s.contains start len = .ok r
      ∧ (r = true ↔ ∀ v, start ≤ v → v < start + len → Covers s.m.entries v) := by
  by_cases hrun : ∀ v, start ≤ v → v < start + len → Covers s.m.entries v
  · obtain ⟨bs, as, k, n, hsplit, hk, hend, hfind⟩ := h.findInc_run hlen hrun
    have hkn : endOf (k, n) = k + n := h.endOf_eq (by rw [hsplit]; simp)
    refine ⟨true, ?_, iff_of_true rfl hrun⟩
    rw [contains, hfind]
    dsimp only
    rw [if_neg (by omega), hkn, if_neg (by omega), assertThat_of ⟨hk, by omega⟩, ok_bind,
      u64_of_lt (by omega), decide_eq_false (by omega)]
    rfl
  · refine ⟨false, ?_, iff_of_false Bool.false_ne_true hrun⟩
    rw [contains]
    cases hfind : s.findInc start with
    | none => rfl
    | some p =>
      obtain ⟨bs, as, hsplit, hbs, has, hhead⟩ := h.findInc_spec start
      have hp : p ∈ s.m.entries := by
        rw [hsplit]
        exact mem_append_right _ (mem_of_mem_head? (hhead.symm.trans hfind))
      dsimp only
      rw [h.endOf_eq hp]
      split_ifs with hafter hpassed
      · rfl
      · rfl
      · rw [assertThat_of ⟨by omega, by omega⟩, ok_bind, u64_of_lt (by omega), decide_eq_true]
        · rfl
        · by_contra hshort
          exact hrun fun v hle hlt => ⟨p, hp, by omega, by omega⟩

variable {i : ℕ}

theorem containsValue_eq (s : IntervalSet) (hi : i + 1 < 2 ^ 64) :
    s.containsValue i = s.contains i 1 := by
  rw [containsValue, contains]
  cases s.findInc i with
  | none => rfl
  | some p =>
    dsimp only
    split_ifs with hafter hpassed
    · rfl
    · rfl
    · rw [u64_of_lt hi, decide_eq_false (by omega)]
      rfl

include h in
theorem containsValue_spec (hbound : i + 1 < 2 ^ 64) :
    ∃ r, s.containsValue i = .ok r ∧ (r = true ↔ Covers s.m.entries i) := by
  obtain ⟨r, hrun, hiff⟩ := h.contains_spec Nat.one_pos hbound
  refine ⟨r, (containsValue_eq s hbound).trans hrun, hiff.trans ?_⟩
  constructor
  · intro hall
    exact hall i le_rfl (by omega)
  · intro hi v hle hlt
    obtain rfl : v = i := by omega
    exact hi

end Ok

/-- A range that overlaps the set fails an assertion; any other is added to it. -/
def AssertsOrUnions (s : IntervalSet) (start len : ℕ) : Prop :=
  ((∃ v ∈ Set.Ico start (start + len), v ∈ s.covered) → s.insert start len = .error .assertion) ∧
  ((∀ v ∈ Set.Ico start (start + len), v ∉ s.covered) →
    ∃ s', s.insert start len = .ok s' ∧ Canonical s'.m.entries ∧
      s'.covered = s.covered ∪ Set.Ico start (start + len) ∧ s'.size = s.size + len)

theorem insert_size_lt {s s' : IntervalSet} {start len : ℕ} (hrun : s.insert start len = .ok s') :
    s'.size < 2 ^ 63 := by
  have hsize : s'.size = s64 (s.size + len) := by
    obtain ⟨_, -, hrun⟩ := bind_eq_ok.mp hrun
    split at hrun
    · cases hrun
      rfl
    · split_ifs at hrun
      · obtain ⟨_, -, hrun⟩ := bind_eq_ok.mp hrun
        dsimp only at hrun
        split at hrun
        · cases hrun
          rfl
        · split_ifs at hrun <;> cases hrun <;> rfl
      · cases hrun
        rfl
      · obtain ⟨_, -, hrun⟩ := bind_eq_ok.mp hrun
        cases hrun
        rfl
  rw [hsize]
  exact Int.bmod_lt (by decide)

theorem insert_assertsOrUnions_iff {s : IntervalSet} (h : Ok s) {start len : ℕ} (hlen : 0 < len)
    (hbound : start + len < 2 ^ 64) : s.AssertsOrUnions start len ↔
      ¬((∃ v ∈ Set.Ico start (start + len), v ∈ s.covered) ∧
        ∃ p ∈ s.m.entries, p.1 + p.2 = start) ∧
      ((∀ v ∈ Set.Ico start (start + len), v ∉ s.covered) → s.size + len < 2 ^ 63) := by
  constructor
  · rintro ⟨hassert, hunion⟩
    constructor
    · rintro ⟨hover, p, hp, hend⟩
      exact (h.insert_overlapping hlen hbound hover).mp (hassert hover) p hp hend
    · intro hfree
      obtain ⟨s', hrun, -, -, hsize⟩ := hunion hfree
      exact hsize ▸ insert_size_lt hrun
  · rintro ⟨hno, hfits⟩
    constructor
    · intro hover
      exact (h.insert_overlapping hlen hbound hover).mpr fun p hp hend => hno ⟨hover, p, hp, hend⟩
    · intro hfree
      have hfew : total s.m.entries + len < 2 ^ 63 := by
        have := hfits hfree
        rw [h.size_eq] at this
        omega
      obtain ⟨s', hrun, hok, hcovers, htotal⟩ :=
        h.insert_spec hlen hbound hfew fun v hle hlt => hfree v ⟨hle, hlt⟩
      refine ⟨s', hrun, hok.canonical, Set.ext hcovers, ?_⟩
      rw [hok.size_eq, h.size_eq, htotal, Nat.cast_add]

def twoRuns : IntervalSet := ⟨8, [(5, 5), (12, 3)], by decide⟩

theorem twoRuns_ok : Ok twoRuns := ⟨⟨by decide, by decide⟩, by decide, by decide, rfl⟩

/-- A range over both intervals, and one in the upper half of the numbers. -/
theorem insert_assertsOrUnions_twoRuns :
    twoRuns.AssertsOrUnions 6 20 ∧ twoRuns.AssertsOrUnions (2 ^ 63) 5 := by
  constructor
  · refine (insert_assertsOrUnions_iff twoRuns_ok (by decide) (by decide)).mpr
      ⟨?_, fun _ => by decide⟩
    rintro ⟨-, hend⟩
    revert hend
    decide
  · refine (insert_assertsOrUnions_iff twoRuns_ok (by decide) (by decide)).mpr
      ⟨?_, fun _ => by decide⟩
    rintro ⟨-, hend⟩
    revert hend
    decide

/-- `10~4` is appended to `5~5` and reaches into `12~3`, which stays in the map. -/
theorem insert_reaches_next : ¬twoRuns.AssertsOrUnions 10 4 := by
  rintro ⟨hassert, -⟩
  cases hassert ⟨12, by simp, (12, 3), by decide⟩

end CephDokan.IntervalSet
