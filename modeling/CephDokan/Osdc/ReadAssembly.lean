import CephDokan.Osdc.StripedReadResult

/-!
# Pieces of a read: adding a dense reply, and assembly

The invariant of `StripedReadResult`: the pieces collected so far tile a set of buffer
positions, and each holds what is wanted at its positions. Assembly from the back then
gives the wanted bytes, with zeros where there is no data.
-/

namespace CephDokan.Striper

open List

def span (pieces : List (ℕ × ℕ)) : Set ℕ := {i | ∃ b ∈ pieces, b.1 ≤ i ∧ i < b.1 + b.2}

/-- Along the buffer extents `pieces`, one after the other, `g` reads as `h` from `0` on. -/
def Along (g : ℕ → Option UInt8) : (ℕ → Option UInt8) → List (ℕ × ℕ) → Prop
  | _, [] => True
  | h, b :: rest => (∀ j < b.2, g (b.1 + j) = h j) ∧ Along g (fun j => h (b.2 + j)) rest

theorem span_cons (b : ℕ × ℕ) (pieces : List (ℕ × ℕ)) :
    span (b :: pieces) = Set.Ico b.1 (b.1 + b.2) ∪ span pieces := by
  ext i
  simp [span]

namespace StripedReadResult

/-- The pieces of `r` tile `D` and hold `g`, with data only at their front. -/
structure Gathered (g : ℕ → Option UInt8) (D : Set ℕ) (r : StripedReadResult) : Prop where
  covers : Tiling.Covers Prod.snd D r.partials
  holds : ∀ e ∈ r.partials.entries,
    e.2.1.length ≤ e.2.2 ∧ e.2.2 < 2 ^ 32 ∧ ∀ j < e.2.2, e.2.1[j]? = g (e.1 + j)

variable {g : ℕ → Option UInt8} {D : Set ℕ} {r : StripedReadResult}

theorem gathered_empty : Gathered g ∅ {} := ⟨Tiling.covers_empty, by simp⟩

theorem Gathered.pieceAt (hr : Gathered g D r) {pos : ℕ} (hpos : pos ∉ D) :
    r.pieceAt pos = ([], 0) := by
  have hnone : r.partials.find? pos = none := by
    apply SortedMap.find?_eq_none
    intro e he hkey
    obtain ⟨hsize, hin⟩ := hr.covers.inside e he
    exact hpos (hkey ▸ hin e.1 le_rfl (by omega))
  simp [StripedReadResult.pieceAt, hnone]

theorem Gathered.putPiece (hr : Gathered g D r) {p n : ℕ} {d} (hn : 0 < n)
    (hsmall : n < 2 ^ 32) (hfree : ∀ i, p ≤ i → i < p + n → i ∉ D) (hlen : d.length ≤ n)
    (hdata : ∀ j < n, d[j]? = g (p + j)) :
    Gathered g (D ∪ Set.Ico p (p + n)) (r.putPiece p d n) := by
  have hnew : (r.putPiece p d n).partials = r.partials.insert p (d, n) := by
    simp [StripedReadResult.putPiece, hr.pieceAt (hfree p le_rfl (by omega))]
  constructor
  · rw [hnew]
    exact hr.covers.insert (v := (d, n)) hn hfree
  · intro e he
    rw [hnew] at he
    rcases (SortedMap.mem_insert _ _ _).mp he with rfl | ⟨he, -⟩
    · exact ⟨hlen, hsmall, hdata⟩
    · exact hr.holds e he

/-- Buffer extents that are still to be filled: non-empty, apart from `D` and in order. -/
structure Fillable (D : Set ℕ) (pieces : List (ℕ × ℕ)) : Prop where
  size : ∀ b ∈ pieces, 0 < b.2 ∧ b.2 < 2 ^ 32
  free : ∀ i ∈ span pieces, i ∉ D
  order : pieces.Pairwise (fun a b => a.1 + a.2 ≤ b.1)

variable {pieces : List (ℕ × ℕ)} {b : ℕ × ℕ}

theorem Fillable.tail (h : Fillable D (b :: pieces)) :
    Fillable (D ∪ Set.Ico b.1 (b.1 + b.2)) pieces := by
  obtain ⟨hfirst, hrest⟩ := pairwise_cons.mp h.order
  refine ⟨fun c hc => h.size c (mem_cons_of_mem _ hc), ?_, hrest⟩
  intro i hi hmem
  cases hmem with
  | inl hD => exact h.free i (by rw [span_cons]; exact .inr hi) hD
  | inr hb =>
    obtain ⟨c, hc, hlo, -⟩ := hi
    have := hfirst c hc
    have := hb.2
    omega

theorem Fillable.head (h : Fillable D (b :: pieces)) : ∀ i, b.1 ≤ i → i < b.1 + b.2 → i ∉ D := by
  intro i h1 h2
  exact h.free i (by rw [span_cons]; exact .inl ⟨h1, h2⟩)

theorem addPartialResult_spec {bl} (hr : Gathered g D r)
    (hfill : Fillable D pieces) (halong : Along g (fun j => bl[j]?) pieces) :
    ∃ r' bl', r.addPartialResult bl pieces = .ok (r', bl') ∧ Gathered g (D ∪ span pieces) r' := by
  induction pieces generalizing r bl D with
  | nil => exact ⟨r, bl, rfl, by simpa [span] using hr⟩
  | cons b rest ih =>
    obtain ⟨hpos, hsmall⟩ := hfill.size b mem_cons_self
    obtain ⟨hhere, hrest⟩ := halong
    have hactual : u32 (min bl.length b.2) = min bl.length b.2 := u32_of_lt (by omega)
    have hput := hr.putPiece (d := bl.take (min bl.length b.2)) hpos hsmall hfill.head (by simp)
      (by
        intro j hj
        rw [hhere j hj, getElem?_take]
        split_ifs with hlt
        · rfl
        · exact (getElem?_eq_none (by omega)).symm)
    have hdrop : (fun j => bl[b.2 + j]?) = fun j => (bl.drop (min bl.length b.2))[j]? := by
      funext j
      rw [getElem?_drop]
      by_cases hle : b.2 ≤ bl.length
      · rw [min_eq_right hle]
      · rw [getElem?_eq_none (by omega), getElem?_eq_none (by omega)]
    rw [hdrop] at hrest
    obtain ⟨r', bl', hrun, hgot⟩ := ih hput hfill.tail hrest
    refine ⟨r', bl', ?_, ?_⟩
    · simp only [addPartialResult, hactual, Bytes.splice_zero (min_le_left bl.length b.2),
        Fallible.ok_bind]
      exact hrun
    · rwa [span_cons, ← Set.union_assoc]

end StripedReadResult

section Assemble

/-- One past the last position below `n` at which `g` has data. -/
def dataEnd (g : ℕ → Option UInt8) : ℕ → ℕ
  | 0 => 0
  | n + 1 => if (g n).isSome then n + 1 else dataEnd g n

variable {g : ℕ → Option UInt8}

theorem dataEnd_le (n : ℕ) : dataEnd g n ≤ n := by
  induction n with
  | zero => exact le_rfl
  | succ n ih =>
    simp only [dataEnd]
    split_ifs
    · exact le_rfl
    · omega

variable {n b : ℕ}

theorem dataEnd_add {k : ℕ} (h : ∀ j < k, g (n + j) = none) : dataEnd g (n + k) = dataEnd g n := by
  induction k with
  | zero => rfl
  | succ k ih =>
    rw [← Nat.add_assoc, dataEnd, h k (Nat.lt_succ_self k), if_neg (by simp)]
    exact ih (fun j hj => h j (by omega))

theorem dataEnd_succ (h : (g n).isSome) : dataEnd g (n + 1) = n + 1 := by
  rw [dataEnd, if_pos h]

theorem dataEnd_of_le {m : ℕ} (hmn : m ≤ n) (h : dataEnd g n ≤ m) : dataEnd g m = dataEnd g n := by
  induction n with
  | zero => rw [Nat.le_zero.mp hmn]
  | succ n ih =>
    rcases hmn.eq_or_lt with rfl | hlt
    · rfl
    · rw [dataEnd] at h ⊢
      split_ifs at h ⊢
      · omega
      · exact ih (by omega) h

variable {g' : ℕ → Option UInt8}

theorem dataEnd_congr (h : ∀ i < n, g i = g' i) : dataEnd g n = dataEnd g' n := by
  induction n with
  | zero => rfl
  | succ n ih =>
    rw [dataEnd, dataEnd, h n (Nat.lt_succ_self n), ih (fun i hi => h i (by omega))]

/-- The bytes `[a, b)` that `g` asks for, zero where it has no data. -/
def padded (g : ℕ → Option UInt8) (a b : ℕ) : Bytes :=
  (List.range' a (b - a)).map (fun i => (g i).getD 0)

variable {a : ℕ}

theorem padded_append {c : ℕ} (hab : a ≤ b) (hbc : b ≤ c) :
    padded g a b ++ padded g b c = padded g a c := by
  have hsplit : List.range' a (b - a) ++ List.range' (a + (b - a)) (c - b) =
      List.range' a (b - a + (c - b)) := range'_append_1
  rw [show a + (b - a) = b by omega, show b - a + (c - b) = c - a by omega] at hsplit
  rw [padded, padded, padded, ← map_append, hsplit]

theorem padded_zero (b : ℕ) : padded g 0 b = (List.range b).map (fun i => (g i).getD 0) := by
  rw [padded, Nat.sub_zero, range_eq_range']

theorem padded_of_le (h : b ≤ a) : padded g a b = [] := by
  simp [padded, Nat.sub_eq_zero_of_le h]

theorem padded_length (a b : ℕ) : (padded g a b).length = b - a := by
  simp [padded]

theorem padded_congr (h : ∀ i < b, g i = g' i) : padded g 0 b = padded g' 0 b := by
  apply map_congr_left
  intro i hi
  rw [h i (by have := mem_range'_1.mp hi; omega)]

section

variable {pos : ℕ} {d : Bytes} (hlen : d.length ≤ n) (hdata : ∀ j < n, d[j]? = g (pos + j))

include hlen hdata

theorem piece_eq : d = padded g pos (pos + d.length) ∧
      Bytes.zero (n - d.length) = padded g (pos + d.length) (pos + n) := by
  constructor
  · apply ext_getElem
    · simp [padded_length]
    · intro j h1 h2
      have hj := hdata j (by omega)
      rw [getElem?_eq_getElem h1] at hj
      simp [padded, ← hj]
  · apply ext_getElem
    · simp only [padded_length, Bytes.zero, length_replicate]
      omega
    · intro j h1 h2
      simp only [Bytes.zero, length_replicate] at h1
      have hj := hdata (d.length + j) (by omega)
      simp [padded, Bytes.zero, Nat.add_assoc, ← hj]

theorem dataEnd_piece : padded g pos (dataEnd g (pos + n)) = d := by
  have hcut : dataEnd g (pos + n) = dataEnd g (pos + d.length) := by
    have hnone : ∀ j < n - d.length, g (pos + d.length + j) = none := by
      intro j hj
      rw [Nat.add_assoc, ← hdata (d.length + j) (by omega)]
      exact getElem?_eq_none (by omega)
    rw [← dataEnd_add hnone]
    congr 1
    omega
  rw [hcut]
  by_cases hd : d.length = 0
  · rw [hd, Nat.add_zero, padded_of_le (dataEnd_le pos)]
    exact (eq_nil_of_length_eq_zero hd).symm
  · obtain ⟨k, hk⟩ := Nat.exists_eq_succ_of_ne_zero hd
    have hsome : (g (pos + k)).isSome := by
      rw [← hdata k (by omega), getElem?_eq_getElem (by omega)]
      rfl
    have hend : dataEnd g (pos + d.length) = pos + d.length := by
      rw [hk, Nat.succ_eq_add_one, ← Nat.add_assoc, dataEnd_succ hsome]
    rw [hend]
    exact (piece_eq hlen hdata).1.symm

end

def resultEnd (g : ℕ → Option UInt8) (zeroTail : Bool) (len : ℕ) : ℕ :=
  if zeroTail = true then len else dataEnd g len

theorem resultEnd_le (zeroTail : Bool) (len : ℕ) : resultEnd g zeroTail len ≤ len := by
  unfold resultEnd
  split_ifs
  · exact le_rfl
  · exact dataEnd_le len

namespace StripedReadResult

variable {len : ℕ}

theorem assembleRound {zeroTail} {pos n : ℕ} {d} (hlen : d.length ≤ n)
    (hn : n < 2 ^ 32) (hdata : ∀ j < n, d[j]? = g (pos + j)) (hle : pos + n ≤ len) :
    (if d.length < n then
        if zeroTail = true ∨ (padded g (pos + n) (resultEnd g zeroTail len)).length ≠ 0 then
          d ++ (Bytes.zero (u32 (n - d.length)) ++ padded g (pos + n) (resultEnd g zeroTail len))
        else d ++ padded g (pos + n) (resultEnd g zeroTail len)
      else d ++ padded g (pos + n) (resultEnd g zeroTail len)) =
      padded g pos (resultEnd g zeroTail len) := by
  rw [padded_length, u32_of_lt (by omega : n - d.length < 2 ^ 32)]
  obtain ⟨hd, hz⟩ := piece_eq hlen hdata
  by_cases hmore : zeroTail = true ∨ pos + n < resultEnd g zeroTail len
  · have hend : pos + n ≤ resultEnd g zeroTail len := by
      cases hmore with
      | inl ht => simpa [resultEnd, ht] using hle
      | inr hlt => exact hlt.le
    have hall : d ++ (Bytes.zero (n - d.length) ++ padded g (pos + n) (resultEnd g zeroTail len)) =
        padded g pos (resultEnd g zeroTail len) := by
      rw [hz, padded_append (by omega) hend]
      nth_rewrite 1 [hd]
      exact padded_append (by omega) (by omega)
    split_ifs with hshort hpad
    · exact hall
    · exact absurd (hmore.imp_right (fun hlt => by omega)) hpad
    · rw [← hall, show n - d.length = 0 by omega]
      rfl
  · obtain ⟨hfalse, hbehind⟩ := not_or.mp hmore
    have hend : resultEnd g zeroTail len = dataEnd g (pos + n) := by
      have hdef : resultEnd g zeroTail len = dataEnd g len := if_neg hfalse
      rw [hdef] at hbehind ⊢
      exact (dataEnd_of_le hle (by omega)).symm
    rw [hend, padded_of_le (dataEnd_le (pos + n)), append_nil, dataEnd_piece hlen hdata]
    split_ifs with hshort hpad
    · rcases hpad with hpad | hpad
      · exact absurd hpad hfalse
      · omega
    · exact append_nil d
    · exact append_nil d

theorem assembleLoop_spec (zeroTail : Bool) {es} {b : ℕ}
    (hchain : Tiling.Chain Prod.snd a es b) (hlen : len < 2 ^ 64) (hb : b ≤ len)
    (hholds : ∀ e ∈ es, e.2.1.length ≤ e.2.2 ∧ e.2.2 < 2 ^ 32 ∧ ∀ j < e.2.2,
      e.2.1[j]? = g (e.1 + j)) :
    ∀ front, assembleLoop zeroTail (es.reverse ++ front) b (padded g b (resultEnd g zeroTail len)) =
      assembleLoop zeroTail front a (padded g a (resultEnd g zeroTail len)) := by
  induction hchain with
  | nil a => exact fun front => rfl
  | @cons a b v es hrest ih =>
    intro front
    obtain ⟨d, n⟩ := v
    obtain ⟨hd, hn, hdata⟩ := hholds (a, d, n) mem_cons_self
    have hle := hrest.le
    simp only at hle hd hn hdata
    rw [reverse_cons, append_assoc,
      ih hb (fun e he => hholds e (mem_cons_of_mem _ he)) ([(a, d, n)] ++ front)]
    have hstop : a = sub64 (a + n) n := by
      rw [sub64_of_le (by omega) (by omega)]
      omega
    simp only [singleton_append, assembleLoop, assertThat_of hstop, Fallible.ok_bind]
    rw [assembleRound hd hn hdata (by omega)]

theorem assembleResult_spec {r} (hr : Gathered g (Set.Iio len) r)
    (hpos : 0 < len) (hlen : len < 2 ^ 64) (zeroTail : Bool) :
    r.assembleResult [] zeroTail = .ok ({}, padded g 0 (resultEnd g zeroTail len)) := by
  have hchain := hr.covers.chain
  have hend : padded g len (resultEnd g zeroTail len) = [] :=
    padded_of_le (resultEnd_le zeroTail len)
  have hloop := assembleLoop_spec zeroTail hchain hlen le_rfl hr.holds []
  rw [hend, append_nil] at hloop
  unfold assembleResult
  cases hes : r.partials.entries.reverse with
  | nil =>
    have hnil : r.partials.entries = [] := reverse_eq_nil_iff.mp hes
    obtain ⟨e, he, -⟩ := hr.covers.covered 0 hpos
    simp [hnil] at he
  | cons e rest =>
    obtain ⟨pos, d, n⟩ := e
    have hsplit : r.partials.entries = rest.reverse ++ [(pos, d, n)] := by
      rw [← reverse_reverse r.partials.entries, hes, reverse_cons]
    have hstop : pos + n = len := by
      rw [hsplit] at hchain
      exact hchain.end_eq
    rw [hes] at hloop
    simp only [hstop, u64_of_lt hlen, hloop]
    rfl

end StripedReadResult

end Assemble

end CephDokan.Striper
