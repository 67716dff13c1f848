import CephDokan.Osdc.ReadAssembly

/-!
# Adding a sparse reply

`add_partial_sparse_result` walks the buffer extents and the map of the reply side by
side. `restByte` is what the unread rest of the map and of its data still says; every
round of the loop moves both sides by the same number of bytes.
-/

namespace CephDokan.Striper

open Fallible List

/-- The byte at object offset `x` according to the ranges `s` of a sparse map and their
data `bl`, when everything before `off` is already consumed. -/
def restByte : List (ℕ × ℕ) → ℕ → Bytes → ℕ → Option UInt8
  | [], _, _, _ => none
  | e :: s, off, bl, x =>
    if max e.1 off ≤ x ∧ x < e.1 + e.2 then bl[x - max e.1 off]?
    else restByte s off (bl.drop (e.1 + e.2 - max e.1 off)) x

/-- The ranges `s` with the data `bl` are ready to be consumed from `off` on. -/
structure SparseRest (s : List (ℕ × ℕ)) (off : ℕ) (bl : Bytes) : Prop where
  bound : ∀ e ∈ s, e.1 + e.2 < 2 ^ 64
  ahead : ∀ e ∈ s.tail, e.2 = 0 ∨ off ≤ e.1
  reach : ∀ e ∈ s.head?, e.2 = 0 ∨ off ≤ e.1 + e.2
  apart : s.Pairwise (fun a b => a.2 = 0 ∨ b.2 = 0 ∨ a.1 + a.2 ≤ b.1)
  length : bl.length = (s.map (fun e => e.1 + e.2 - max e.1 off)).sum

variable {off' : ℕ}

section

variable {s : List (ℕ × ℕ)}

theorem restByte_off {off : ℕ} (bl : Bytes) (x : ℕ)
    (h : ∀ e ∈ s, e.2 = 0 ∨ (off ≤ e.1 ∧ off' ≤ e.1)) :
    restByte s off bl x = restByte s off' bl x := by
  induction s generalizing bl with
  | nil => rfl
  | cons e s ih =>
    have hrest := fun bl => ih bl (fun f hf => h f (mem_cons_of_mem _ hf))
    simp only [restByte]
    cases h e mem_cons_self with
    | inl h0 =>
      rw [if_neg (by omega), if_neg (by omega), hrest]
      congr 2
      omega
    | inr hle => rw [max_eq_left hle.1, max_eq_left hle.2, hrest]

theorem restByte_none {off : ℕ} (bl : Bytes) {x : ℕ} (h : ∀ e ∈ s, e.2 = 0 ∨ x < e.1) :
    restByte s off bl x = none := by
  induction s generalizing bl with
  | nil => rfl
  | cons e s ih =>
    have := h e mem_cons_self
    rw [restByte, if_neg (by omega)]
    exact ih _ (fun f hf => h f (mem_cons_of_mem _ hf))

theorem sum_rest_off {off : ℕ} (h : ∀ e ∈ s, e.2 = 0 ∨ (off ≤ e.1 ∧ off' ≤ e.1)) :
    (s.map (fun e => e.1 + e.2 - max e.1 off)).sum =
      (s.map (fun e => e.1 + e.2 - max e.1 off')).sum := by
  congr 1
  apply map_congr_left
  intro e he
  have := h e he
  omega

end

namespace SparseRest

variable {first second off : ℕ} {s : List (ℕ × ℕ)} {bl : Bytes}

/-- The ranges behind a non-empty one are untouched as long as it is not passed. -/
theorem tail_ahead (h : SparseRest ((first, second) :: s) off bl) (hne : second ≠ 0)
    (hoff : off' ≤ first + second) : ∀ e ∈ s, e.2 = 0 ∨ (off ≤ e.1 ∧ off' ≤ e.1) := by
  intro e he
  have h1 := h.ahead e he
  have h2 := (pairwise_cons.mp h.apart).1 e he
  omega

theorem skip (h : SparseRest ((first, second) :: s) off bl)
    (hdone : first + second - max first off = 0) : SparseRest s off bl := by
  refine ⟨fun e he => h.bound e (mem_cons_of_mem _ he), ?_, ?_, (pairwise_cons.mp h.apart).2, ?_⟩
  · intro e he
    exact h.ahead e (mem_of_mem_tail he)
  · intro e he
    have := h.ahead e (mem_of_mem_head? he)
    omega
  · have hlen := h.length
    simp only [map_cons, sum_cons, hdone] at hlen
    omega

theorem restByte_skip (hdone : first + second - max first off = 0) (x : ℕ) :
    restByte ((first, second) :: s) off bl x = restByte s off bl x := by
  simp only [restByte]
  rw [if_neg (by omega), hdone, drop_zero]

section

variable (h : SparseRest ((first, second) :: s) off bl) (hne : second ≠ 0) {n : ℕ}

include h hne

theorem gap (hn : off + n ≤ first) : SparseRest ((first, second) :: s) (off + n) bl ∧
      (∀ x, restByte ((first, second) :: s) (off + n) bl x =
        restByte ((first, second) :: s) off bl x) ∧
      ∀ x < off + n, restByte ((first, second) :: s) off bl x = none := by
  have hall : ∀ e ∈ (first, second) :: s, e.2 = 0 ∨ (off ≤ e.1 ∧ off + n ≤ e.1) := by
    intro e he
    rcases mem_cons.mp he with rfl | he
    · exact .inr ⟨by omega, hn⟩
    · exact h.tail_ahead hne (by omega) e he
  refine ⟨⟨h.bound, ?_, ?_, h.apart, ?_⟩, ?_, ?_⟩
  · intro e he
    have := hall e (mem_cons_of_mem _ he)
    omega
  · intro e he
    cases he
    exact .inr (by omega)
  · rw [← sum_rest_off hall]
    exact h.length
  · intro x
    exact (restByte_off bl x hall).symm
  · intro x hx
    apply restByte_none
    intro e he
    have := hall e he
    omega

theorem copy (hoff : first ≤ off) (hn : off + n ≤ first + second) :
    n ≤ bl.length ∧ SparseRest ((first, second) :: s) (off + n) (bl.drop n) ∧
      (∀ x, off + n ≤ x → restByte ((first, second) :: s) (off + n) (bl.drop n) x =
        restByte ((first, second) :: s) off bl x) ∧
      ∀ j < n, restByte ((first, second) :: s) off bl (off + j) = bl[j]? := by
  have htail := h.tail_ahead hne hn
  have hlen := h.length
  simp only [map_cons, sum_cons, max_eq_right hoff] at hlen
  refine ⟨by omega, ⟨h.bound, ?_, ?_, h.apart, ?_⟩, ?_, ?_⟩
  · intro e he
    have := htail e he
    omega
  · intro e he
    cases he
    exact .inr hn
  · rw [length_drop, map_cons, sum_cons, ← sum_rest_off htail,
      max_eq_right (show first ≤ off + n by omega)]
    omega
  · intro x hx
    simp only [restByte]
    rw [max_eq_right hoff, max_eq_right (show first ≤ off + n by omega)]
    by_cases hin : x < first + second
    · rw [if_pos ⟨hx, hin⟩, if_pos ⟨by omega, hin⟩, getElem?_drop]
      congr 1
      omega
    · rw [if_neg (by omega), if_neg (by omega), drop_drop, ← restByte_off _ _ htail]
      congr 2
      omega
  · intro j hj
    simp only [restByte]
    rw [max_eq_right hoff, if_pos (by omega)]
    congr 1
    omega

end

end SparseRest

namespace StripedReadResult.SparseCursor

/-- `c` stands at position `x` of the object with `D` filled: what is left of the current
buffer extent is free, and `g` asks for what the rest of the map holds there. -/
structure Ready (g : ℕ → Option UInt8) (D : Set ℕ) (x : ℕ) (c : SparseCursor) : Prop where
  gathered : Gathered g D c.result
  free : ∀ i, c.tofs ≤ i → i < c.tofs + c.tlen → i ∉ D
  small : c.tlen < 2 ^ 32
  rest : SparseRest c.s c.blOff c.bl
  position : c.s = [] ∨ c.blOff = x
  want : ∀ j < c.tlen, g (c.tofs + j) = restByte c.s c.blOff c.bl (x + j)

/-- `c'` has filled `n` positions more than `c`. -/
structure Advanced (g : ℕ → Option UInt8) (D : Set ℕ) (x n : ℕ) (c c' : SparseCursor) :
    Prop where
  ready : Ready g (D ∪ Set.Ico c.tofs (c.tofs + n)) (x + n) c'
  tofs : c'.tofs = c.tofs + n
  tlen : c'.tlen + n = c.tlen
  later : ∀ y, x + n ≤ y → restByte c'.s c'.blOff c'.bl y = restByte c.s c.blOff c.bl y

variable {g : ℕ → Option UInt8} {D : Set ℕ} {x : ℕ} {c c' c'' : SparseCursor}

theorem Advanced.trans {n m : ℕ} (h : Advanced g D x n c c')
    (h' : Advanced g (D ∪ Set.Ico c.tofs (c.tofs + n)) (x + n) m c' c'') :
    Advanced g D x (n + m) c c'' := by
  have hD : D ∪ Set.Ico c.tofs (c.tofs + n) ∪ Set.Ico c'.tofs (c'.tofs + m) =
      D ∪ Set.Ico c.tofs (c.tofs + (n + m)) := by
    rw [h.tofs, Set.union_assoc, Set.Ico_union_Ico_eq_Ico (by omega) (by omega), Nat.add_assoc]
  have hready := h'.ready
  have htofs := h'.tofs
  have htlen := h'.tlen
  refine ⟨?_, by rw [htofs, h.tofs, Nat.add_assoc], by have := h.tlen; omega, ?_⟩
  · rw [← hD, ← Nat.add_assoc]
    exact hready
  · intro y hy
    rw [h'.later y (by omega), h.later y (by omega)]

variable {s' : List (ℕ × ℕ)}

/-- Filling `n > 0` positions with `d` and moving the map to `s'`, `off'`, `bl'`. -/
theorem Ready.put (h : Ready g D x c) {n : ℕ} (hn : 0 < n) (hle : n ≤ c.tlen) {d bl'}
    (hd : d.length ≤ n) (hdata : ∀ j < n, d[j]? = restByte c.s c.blOff c.bl (x + j))
    (hrest : SparseRest s' off' bl') (hpos : s' = [] ∨ off' = x + n)
    (hlater : ∀ y, x + n ≤ y → restByte s' off' bl' y = restByte c.s c.blOff c.bl y) :
    Advanced g D x n c ⟨c.result.putPiece c.tofs d n, bl', s', off', c.tofs + n, c.tlen - n⟩ := by
  have hput := h.gathered.putPiece (p := c.tofs) hn (by have := h.small; omega)
    (fun i h1 h2 => h.free i h1 (by omega)) hd
    (fun j hj => (hdata j hj).trans (h.want j (by omega)).symm)
  refine ⟨⟨hput, ?_, ?_, hrest, hpos, ?_⟩, rfl, by simp only; omega, hlater⟩
  · intro i h1 h2 hmem
    simp only at h1 h2
    cases hmem with
    | inl hD => exact h.free i (by omega) (by omega) hD
    | inr hI => exact absurd hI.2 (by omega)
  · have := h.small
    simp only
    omega
  · intro j hj
    simp only at hj ⊢
    rw [hlater _ (by omega), Nat.add_assoc, h.want (n + j) (by omega), Nat.add_assoc]

theorem Ready.advanced_zero (h : Ready g D x c) (hrest : SparseRest s' c.blOff c.bl)
    (hpos : s' = [] ∨ c.blOff = x)
    (hsame : ∀ y, restByte s' c.blOff c.bl y = restByte c.s c.blOff c.bl y) :
    Advanced g D x 0 c { c with s := s' } := by
  have hD : D ∪ Set.Ico c.tofs (c.tofs + 0) = D := by simp
  refine ⟨?_, rfl, rfl, fun y _ => hsame y⟩
  rw [hD]
  exact ⟨h.gathered, h.free, h.small, hrest, hpos, fun j hj => (h.want j hj).trans (hsame _).symm⟩

section

variable (h : Ready g D x c) {first second : ℕ} {s : List (ℕ × ℕ)} (hs : c.s = (first, second) :: s)
  (hne : second ≠ 0) (hlen : c.tlen ≠ 0)

include h hs hne hlen

theorem skipGap_spec : ∃ n, Advanced g D x n c (c.skipGap first) ∧ (c.skipGap first).s = c.s ∧
      ((c.skipGap first).tlen ≠ 0 → first ≤ (c.skipGap first).blOff) := by
  have hx : c.blOff = x := h.position.resolve_left (by simp [hs])
  unfold skipGap
  split_ifs with hgap
  · obtain ⟨n, hn⟩ : ∃ n, n = min (first - c.blOff) c.tlen := ⟨_, rfl⟩
    have hrest := h.rest
    rw [hs] at hrest
    obtain ⟨hrest', hsame, hnone⟩ := hrest.gap hne (n := n) (by omega)
    refine ⟨n, ?_, rfl, ?_⟩
    · simp only [← hn]
      refine h.put (d := []) (by omega) (by omega) (by simp) ?_ ?_ (.inr (by omega)) ?_
      · intro j hj
        rw [hs, hnone _ (by omega)]
        rfl
      · rw [hs]
        exact hrest'
      · intro y _
        rw [hs]
        exact hsame y
    · simp only
      omega
  · exact ⟨0, h.advanced_zero h.rest h.position (fun _ => rfl), rfl, fun _ => by omega⟩

theorem copyRun_spec (hoff : first ≤ c.blOff) :
    ∃ c' n, c.copyRun first second = .ok c' ∧ Advanced g D x n c c' ∧
      c'.tlen + c'.s.length < c.tlen + c.s.length := by
  have hx : c.blOff = x := h.position.resolve_left (by simp [hs])
  have hrest := h.rest
  rw [hs] at hrest
  have hbound : first + second < 2 ^ 64 := hrest.bound (first, second) mem_cons_self
  have hreach : c.blOff ≤ first + second := (hrest.reach (first, second) rfl).resolve_left hne
  have hleft : sub64 (u64 (first + second)) c.blOff = first + second - c.blOff := by
    rw [u64_of_lt hbound, sub64_of_le hreach hbound]
  obtain ⟨n, hn⟩ : ∃ n, n = min (first + second - c.blOff) c.tlen := ⟨_, rfl⟩
  obtain ⟨hnlen, hrest', hlater, hdata⟩ := hrest.copy hne hoff (n := n) (by omega)
  have hsmall : u32 n = n := u32_of_lt (by have := h.small; omega)
  simp only [copyRun, assertThat_of hoff, ok_bind, hleft, ← hn]
  by_cases hpos : n > 0
  · have htake : ∀ j < n, (c.bl.take n)[j]? = restByte c.s c.blOff c.bl (x + j) := by
      intro j hj
      rw [hs, ← hx, hdata j hj, getElem?_take, if_pos hj]
    simp only [if_pos hpos, hsmall, Bytes.splice_zero hnlen, ok_bind, pure_eq_ok]
    by_cases hall : n = first + second - c.blOff
    · have hdone : first + second - max first (c.blOff + n) = 0 := by omega
      refine ⟨_, n, rfl, ?_, ?_⟩
      · rw [if_pos hall]
        refine h.put hpos (by omega) (by simp) htake ?_ (.inr (by omega)) ?_
        · rw [hs]
          exact hrest'.skip hdone
        · intro y hy
          rw [hs, tail_cons, ← SparseRest.restByte_skip hdone]
          exact hlater y (by omega)
      · simp only [if_pos hall, hs, tail_cons, length_cons]
        omega
    · refine ⟨_, n, rfl, ?_, ?_⟩
      · rw [if_neg hall]
        refine h.put hpos (by omega) (by simp) htake ?_ (.inr (by omega)) ?_
        · rw [hs]
          exact hrest'
        · intro y hy
          rw [hs]
          exact hlater y (by omega)
      · simp only [if_neg hall]
        omega
  · have hdone : first + second - max first c.blOff = 0 := by omega
    simp only [if_neg hpos, ok_bind, pure_eq_ok]
    refine ⟨_, 0, rfl, ?_, ?_⟩
    · rw [if_pos (by omega)]
      refine h.advanced_zero ?_ (.inr hx) ?_
      · rw [hs]
        exact hrest.skip hdone
      · intro y
        rw [hs, tail_cons, SparseRest.restByte_skip hdone]
    · rw [if_pos (by omega)]
      simp only [hs, tail_cons, length_cons]
      omega

end

/-- `c'` has filled the whole buffer extent of `c`. -/
structure Filled (g : ℕ → Option UInt8) (D : Set ℕ) (x : ℕ) (c c' : SparseCursor) : Prop where
  gathered : Gathered g (D ∪ Set.Ico c.tofs (c.tofs + c.tlen)) c'.result
  rest : SparseRest c'.s c'.blOff c'.bl
  position : c'.s = [] ∨ c'.blOff = x + c.tlen
  later : ∀ y, x + c.tlen ≤ y → restByte c'.s c'.blOff c'.bl y = restByte c.s c.blOff c.bl y

theorem Advanced.filled (h : Advanced g D x c.tlen c c') : Filled g D x c c' :=
  ⟨h.ready.gathered, h.ready.rest, h.ready.position, h.later⟩

theorem Advanced.trans_filled {n : ℕ} (h : Advanced g D x n c c')
    (h' : Filled g (D ∪ Set.Ico c.tofs (c.tofs + n)) (x + n) c' c'') : Filled g D x c c'' := by
  have htofs := h.tofs
  have htlen := h.tlen
  have hD : D ∪ Set.Ico c.tofs (c.tofs + n) ∪ Set.Ico c'.tofs (c'.tofs + c'.tlen) =
      D ∪ Set.Ico c.tofs (c.tofs + c.tlen) := by
    rw [htofs, Set.union_assoc, Set.Ico_union_Ico_eq_Ico (by omega) (by omega)]
    congr 2
    omega
  refine ⟨hD ▸ h'.gathered, h'.rest, ?_, ?_⟩
  · exact h'.position.imp_right (fun hp => by omega)
  · intro y hy
    rw [h'.later y (by omega), h.later y (by omega)]

theorem fill_spec {fuel : ℕ} (h : Ready g D x c) (hfuel : c.tlen + c.s.length ≤ fuel) :
    ∃ c', fill fuel c = .ok c' ∧ Filled g D x c c' := by
  have hstay : c.tlen = 0 → Filled g D x c c := by
    intro h0
    have hzero := h.advanced_zero h.rest h.position (fun _ => rfl)
    rw [← h0] at hzero
    exact hzero.filled
  induction fuel generalizing c D x with
  | zero => exact ⟨c, by simp [fill, show c.tlen = 0 by omega], hstay (by omega)⟩
  | succ fuel ih =>
    have step : ∀ {n c'}, Advanced g D x n c c' → c'.tlen + c'.s.length ≤ fuel →
        ∃ c'', fill fuel c' = .ok c'' ∧ Filled g D x c c'' := by
      intro n c' hadv hle
      obtain ⟨c'', hrun, hfilled⟩ := ih hadv.ready hle (fun h0 => by
        have hzero := hadv.ready.advanced_zero hadv.ready.rest hadv.ready.position (fun _ => rfl)
        rw [← h0] at hzero
        exact hzero.filled)
      exact ⟨c'', hrun, hadv.trans_filled hfilled⟩
    by_cases h0 : c.tlen = 0
    · exact ⟨c, by simp [fill, h0], hstay h0⟩
    rw [fill, if_neg h0]
    cases hs : c.s with
    | nil =>
      have hnone : ∀ y, restByte c.s c.blOff c.bl y = none := by
        intro y
        rw [hs]
        rfl
      have hput := (h.put (d := []) (Nat.pos_of_ne_zero h0) le_rfl (by simp)
        (fun j _ => (hnone _).symm) h.rest (.inl hs) (fun _ _ => rfl)).filled
      refine ⟨_, rfl, hput.gathered, ?_, .inl rfl, ?_⟩
      · simpa [hs] using h.rest
      · intro y _
        exact (hnone y).symm
    | cons e s =>
      obtain ⟨first, second⟩ := e
      have hx : c.blOff = x := h.position.resolve_left (by simp [hs])
      simp only
      split_ifs with hz h0'
      · subst hz
        have hrest := h.rest
        rw [hs] at hrest
        have hdone : first + 0 - max first c.blOff = 0 := by omega
        refine step (h.advanced_zero (hrest.skip hdone) (.inr hx) ?_) ?_
        · intro y
          rw [hs, SparseRest.restByte_skip hdone]
        · simp only [hs, length_cons] at hfuel ⊢
          omega
      · obtain ⟨n, hadv, hsame, -⟩ := skipGap_spec h hs hz h0
        refine step hadv ?_
        rw [h0', hsame]
        omega
      · obtain ⟨n, hadv, hsame, hoff⟩ := skipGap_spec h hs hz h0
        obtain ⟨c', m, hrun, hadv', hless⟩ :=
          copyRun_spec hadv.ready (hsame.trans hs) hz h0' (hoff h0')
        have htlen := hadv.tlen
        rw [hsame] at hless
        simp only [hrun, ok_bind]
        exact step (hadv.trans hadv') (by omega)

end StripedReadResult.SparseCursor

namespace StripedReadResult

variable {g : ℕ → Option UInt8} {D : Set ℕ} {r : StripedReadResult}

theorem addSparseLoop_spec {pieces} {bl} {s} {off x : ℕ}
    (hr : Gathered g D r) (hfill : Fillable D pieces) (hrest : SparseRest s off bl)
    (hpos : s = [] ∨ off = x) (halong : Along g (fun j => restByte s off bl (x + j)) pieces) :
    ∃ r' bl', addSparseLoop r bl s off pieces = .ok (r', bl') ∧
      Gathered g (D ∪ span pieces) r' := by
  induction pieces generalizing r bl s off x D with
  | nil => exact ⟨r, bl, rfl, by simpa [span] using hr⟩
  | cons b rest ih =>
    obtain ⟨hhere, hnext⟩ := halong
    obtain ⟨c, hrun, hc⟩ := SparseCursor.fill_spec (c := ⟨r, bl, s, off, b.1, b.2⟩)
      ⟨hr, hfill.head, (hfill.size b mem_cons_self).2, hrest, hpos, hhere⟩ le_rfl
    have hlater : (fun j => restByte s off bl (x + (b.2 + j))) =
        fun j => restByte c.s c.blOff c.bl (x + b.2 + j) := by
      funext j
      rw [hc.later _ (Nat.le_add_right _ _), Nat.add_assoc]
    rw [hlater] at hnext
    obtain ⟨r', bl', hloop, hgot⟩ := ih hc.gathered hfill.tail hc.rest hc.position hnext
    refine ⟨r', bl', ?_, ?_⟩
    · simp only [addSparseLoop, hrun, ok_bind]
      exact hloop
    · rwa [span_cons, ← Set.union_assoc]

end StripedReadResult

end CephDokan.Striper
