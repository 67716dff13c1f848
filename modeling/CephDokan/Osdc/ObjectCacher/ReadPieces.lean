import CephDokan.Lib.FileBytes
import CephDokan.Osdc.ObjectCacher.MapReadHeads
import CephDokan.Osdc.ObjectCacher.Readx
import CephDokan.Osdc.StripedRead

/-!
# The pieces of a cached read

The loop that walks the heads of an extent and the fragments of the buffer in lock step. It
puts the cached bytes of each fragment into the result if all heads have data, and throws if
one is in the error state. The pieces of all extents, one after the other, are the result.
-/

namespace CephDokan.ObjectCacher

open Fallible FileBytes List

def Cell.byte : Cell → UInt8
  | .clean v | .dirty v _ | .tx _ v _ => v.getD 0
  | .missing | .zero | .rx _ | .error => 0

namespace Focus

theorem readBit_hit {bh} {opos len : ℕ} (hfill : bh.Filled)
    (hhit : bh.state.found = .hit) (hlo : bh.start ≤ opos) (hhi : opos + len ≤ bh.stop) :
    readBit bh opos len = .ok (slice (fun b => (bh.cell b).byte) opos len) := by
  have hdata : bh.bl.length = bh.length →
      bh.bl.substrOf (opos - bh.start) len =
        .ok (slice (fun b => bh.bl[b - bh.start]?.getD 0) opos len) := by
    intro hlen
    unfold BufferHead.stop at hhi
    rw [Bytes.substrOf_of_le (by omega)]
    congr 1
    apply ext_getElem
    · simp only [slice, length_take, length_drop, length_map, length_range']
      omega
    · intro j h1 h2
      simp only [slice, length_map, length_range'] at h2
      have hj : opos + j - bh.start < bh.bl.length := by omega
      simp only [slice, getElem_take, getElem_drop, getElem_map,
        getElem_range', one_mul, getElem?_eq_getElem hj, Option.getD_some]
      congr 1
      omega
  unfold readBit
  unfold BufferHead.Filled at hfill
  cases hstate : bh.state with
  | missing | rx | error =>
    rw [hstate] at hhit
    cases hhit
  | zero =>
    simp only [slice, BufferHead.cell, hstate, Cell.byte, Bytes.zero]
    simp
  | clean | dirty | tx =>
    rw [if_neg (by decide), hdata (by simpa [hstate] using hfill)]
    simp only [BufferHead.cell, hstate, Cell.byte]

theorem readBit_error {bh} (opos : ℕ) {len : ℕ} (hfill : bh.Filled)
    (herror : bh.state = .error) (hlen : 0 < len) : ∃ err, readBit bh opos len = .error err := by
  have hbl : bh.bl = [] := by simpa [BufferHead.Filled, herror] using hfill
  unfold readBit Bytes.substrOf
  rw [if_neg (by simp [herror]), hbl, length_nil]
  by_cases hwrap : u32 (opos - bh.start + len) > 0
  · exact ⟨_, if_pos hwrap⟩
  · rw [if_neg hwrap, if_pos (by omega)]
    exact ⟨_, rfl⟩

/-- The result with the fragments `frags`, which the values of `v` from `x` on fill. -/
def placed (v : ℕ → UInt8) : List (ℕ × ℕ) → ℕ → SortedMap ℕ Bytes → SortedMap ℕ Bytes
  | [], _, m => m
  | (fo, fl) :: frags, x, m => placed v frags (x + fl) (m.insert fo (slice v x fl))

/-- The heads that the loop still has to read, `e` the one it is in. -/
structure Heads (f : Focus) (hi : ℕ) (e : Entry) (mid : List Entry) (hits : List (ℕ × ℕ))
    (opos bhoff : ℕ) : Prop where
  runs : Runs (e :: mid) opos hi
  ordered : Extents.Ordered BufferHead.length (e :: mid)
  offset : opos = e.1 + bhoff
  marks : hits.map Prod.snd = mid.map Prod.fst
  entry : ∀ x ∈ e :: mid, EntryOk x ∧ x.2.Filled
  deref : ∀ x ∈ e :: mid, ∃ d, f.deref x.1 = .ok { x.2 with dontneed := d }

/-- Reading the heads `mid` gives `a`, or an error if one of them is in the error state. -/
def Copies {α : Type} (mid : List Entry) (run : Run α) (a : α) : Prop :=
  (run = .ok a ∧ ∀ x ∈ mid, x.2.state ≠ .error) ∨
    (∃ err, run = .error err) ∧ ∃ x ∈ mid, x.2.state = .error

section Loop

variable {f : Focus} {hi opos bhoff foff len first fo fl : ℕ} {e : Entry} {mid : List Entry}
  {hits frags : List (ℕ × ℕ)} {v : ℕ → UInt8} {m : SortedMap ℕ Bytes}

theorem Copies.mono {α : Type} {mid'} {run} {a : α} (h : Copies mid' run a)
    (hsub : ∀ x ∈ mid', x ∈ e :: mid) (hsound : e.2.state ≠ .error) (hkeep : ∀ x ∈ mid, x ∈ mid') :
    Copies (e :: mid) run a := by
  rcases h with ⟨hrun, hall⟩ | ⟨herr, x, hx, hst⟩
  · exact .inl ⟨hrun, forall_mem_cons.mpr ⟨hsound, fun x hx => hall x (hkeep x hx)⟩⟩
  · exact .inr ⟨herr, x, hsub x hx, hst⟩

variable (first) in
theorem Heads.advance (h : Heads f hi e mid hits opos bhoff) (hlen : len ≤ e.2.length - bhoff)
    (hmore : opos + len < hi) :
    ∃ e' mid' first' hits' bhoff',
      (if opos + len = e.1 + e.2.length then hits else (first, e.1) :: hits) =
        (first', e'.1) :: hits' ∧
      (if opos + len = e.1 + e.2.length then 0 else bhoff + len) = bhoff' ∧
      Heads f hi e' mid' hits' (opos + len) bhoff' ∧ (∀ x ∈ e' :: mid', x ∈ e :: mid) ∧
      (∀ x ∈ mid, x ∈ e' :: mid') ∧ mid'.length ≤ mid.length ∧
      (opos + len = e.1 + e.2.length → mid'.length < mid.length) := by
  obtain ⟨h1, h2, h3, hrest⟩ := h.runs
  have hoff := h.offset
  by_cases hdone : opos + len = e.1 + e.2.length
  · simp only [if_pos hdone]
    cases mid with
    | nil =>
      simp only [Runs] at hrest
      omega
    | cons e' mid =>
      obtain ⟨⟨first', k⟩, hits, rfl, rfl, htail⟩ := map_eq_cons_iff.mp h.marks
      obtain ⟨hle, hord⟩ := pairwise_cons.mp h.ordered
      have hstart := hle e' mem_cons_self
      have hstart' := hrest.1
      refine ⟨e', mid, first', hits, 0, rfl, rfl, ⟨hdone ▸ hrest, hord, ?_, htail, ?_, ?_⟩, ?_,
        fun x hx => hx, by simp, by simp⟩
      · omega
      · exact fun x hx => h.entry x (mem_cons_of_mem _ hx)
      · exact fun x hx => h.deref x (mem_cons_of_mem _ hx)
      · exact fun x hx => mem_cons_of_mem _ hx
  · simp only [if_neg hdone]
    refine ⟨e, mid, first, hits, bhoff + len, rfl, rfl,
      ⟨⟨by omega, by omega, hmore, hrest⟩, h.ordered, by omega, h.marks, h.entry, h.deref⟩,
      fun x hx => hx, fun x hx => mem_cons_of_mem _ hx, le_rfl, fun h => absurd h hdone⟩

section

variable (fuel : ℕ) (h : Heads f hi e mid hits opos bhoff)

include fuel h

theorem rmapLoop_step :
    f.rmapLoop (fuel + 1) ((first, e.1) :: hits) ((fo, fl) :: frags) opos bhoff foff m =
      (do
        let bit ← readBit e.2 opos (min (fl - foff) (e.2.length - bhoff))
        let len := min (fl - foff) (e.2.length - bhoff)
        f.rmapLoop fuel
          (if opos + len = e.1 + e.2.length then hits else (first, e.1) :: hits)
          (if foff + len = fl then frags else (fo, fl) :: frags) (opos + len)
          (if opos + len = e.1 + e.2.length then 0 else bhoff + len)
          (if foff + len = fl then 0 else foff + len)
          (m.insert fo ((m.find? fo).getD [] ++ bit))) := by
  obtain ⟨d, hd⟩ := h.deref e mem_cons_self
  have hok := (h.entry e mem_cons_self).1
  have hstart : opos = e.2.start + bhoff := by rw [hok.start]; exact h.offset
  rw [rmapLoop, hd, ok_bind]
  rw [assertThat_of hstart, ok_bind]
  have hstop : BufferHead.stop { e.2 with dontneed := d } = e.1 + e.2.length := hok.stop
  rw [hstop]
  rfl

variable (first) in
theorem rmapLoop_spec (hstate : ∀ x ∈ e :: mid, x.2.state.found = .hit ∨ x.2.state = .error)
    (hv : ∀ x ∈ e :: mid, ∀ b, x.1 ≤ b → b < x.1 + x.2.length → (x.2.cell b).byte = v b)
    (hfoff : foff < fl) (hle : foff ≤ opos)
    (hsum : opos + (fl - foff) + (frags.map Prod.snd).sum = hi) (hpos : ∀ b ∈ frags, 0 < b.2)
    (hacc : (m.find? fo).getD [] = slice v (opos - foff) foff)
    (hfree : ∀ b ∈ frags, m.find? b.1 = none)
    (hdist : ((fo, fl) :: frags).Pairwise fun a b => a.1 ≠ b.1)
    (hfuel : mid.length + frags.length + 3 ≤ fuel) :
    Copies (e :: mid)
      (f.rmapLoop fuel ((first, e.1) :: hits) ((fo, fl) :: frags) opos bhoff foff m)
      (hi, [], placed v frags (opos - foff + fl) (m.insert fo (slice v (opos - foff) fl))) := by
  induction fuel generalizing e mid hits opos bhoff foff first fo fl frags m with
  | zero => omega
  | succ fuel ih =>
    obtain ⟨h1, h2, h3, hrest⟩ := h.runs
    obtain ⟨hok, hfill⟩ := h.entry e mem_cons_self
    have hoff := h.offset
    have hstop := hok.stop
    obtain ⟨len, hlen⟩ : ∃ len, len = min (fl - foff) (e.2.length - bhoff) := ⟨_, rfl⟩
    rw [rmapLoop_step fuel h, ← hlen]
    rcases hstate e mem_cons_self with hhit | herr
    swap
    · obtain ⟨err, hbit⟩ := readBit_error opos hfill herr (by omega : 0 < len)
      exact .inr ⟨⟨err, by rw [hbit]; rfl⟩, e, mem_cons_self, herr⟩
    have hsound : e.2.state ≠ .error := by
      intro herr
      rw [herr] at hhit
      cases hhit
    have hbit : readBit e.2 opos len = .ok (slice v opos len) := by
      rw [readBit_hit hfill hhit (by rw [hok.start]; omega) (by omega)]
      congr 1
      apply slice_congr
      intro j hj
      exact hv e mem_cons_self _ (by omega) (by omega)
    have hgrow : (m.find? fo).getD [] ++ slice v opos len = slice v (opos - foff) (foff + len) := by
      rw [hacc, ← slice_append v (opos - foff) foff len]
      congr 2
      omega
    rw [hbit, ok_bind]
    dsimp only
    rw [hgrow]
    obtain ⟨hne, hdist'⟩ := pairwise_cons.mp hdist
    have hmiss (bl : Bytes) : ∀ b ∈ frags, (m.insert fo bl).find? b.1 = none := by
      intro b hb
      rw [SortedMap.find?_insert_of_ne _ _ (hne b hb).symm]
      exact hfree b hb
    have hroom : len ≤ e.2.length - bhoff := by omega
    by_cases hfrag : foff + len = fl
    · rw [if_pos hfrag, if_pos hfrag, hfrag]
      cases frags with
      | nil =>
        -- the last fragment ends where the extent ends
        have hend : opos + len = hi := by
          simp only [map_nil, sum_nil] at hsum
          omega
        refine .inl ⟨?_, forall_mem_cons.mpr ⟨hsound, fun x hx => ?_⟩⟩
        · obtain ⟨n, rfl⟩ : ∃ n, fuel = n + 1 := ⟨fuel - 1, by omega⟩
          rw [rmapLoop.eq_def, hend]
          split_ifs
          · cases hits <;> rfl
          · rfl
        · have hmeets := hrest.meets hx
          omega
      | cons b frags =>
        obtain ⟨fo', fl'⟩ := b
        have hb := hpos (fo', fl') mem_cons_self
        simp only [map_cons, sum_cons, length_cons] at hsum hb hfuel
        obtain ⟨e', mid', first', hits', bhoff', hhits, hbhoff, hheads, hsub, hkeep, hmid, -⟩ :=
          h.advance first hroom (by omega)
        have hnext := ih first' hheads (fun x hx => hstate x (hsub x hx))
          (fun x hx => hv x (hsub x hx)) hb (Nat.zero_le _) (by omega)
          (fun b hb => hpos b (mem_cons_of_mem _ hb)) (by rw [hmiss _ _ mem_cons_self]; rfl)
          (fun b hb => hmiss (slice v (opos - foff) fl) b (mem_cons_of_mem _ hb)) hdist' (by omega)
        rw [hhits, hbhoff, placed, show opos - foff + fl = opos + len by omega]
        exact hnext.mono hsub hsound hkeep
    · rw [if_neg hfrag, if_neg hfrag]
      obtain ⟨e', mid', first', hits', bhoff', hhits, hbhoff, hheads, hsub, hkeep, -, hshrink⟩ :=
        h.advance first hroom (by omega)
      have hpart : foff + len < fl := by omega
      have hsame : opos + len - (foff + len) = opos - foff := by omega
      have hnext := ih first' hheads (fun x hx => hstate x (hsub x hx))
        (fun x hx => hv x (hsub x hx)) hpart (by omega) (by omega) hpos
        (by rw [SortedMap.find?_insert_self, hsame]; rfl)
        (hmiss (slice v (opos - foff) (foff + len))) hdist (by omega)
      rw [SortedMap.insert_insert, hsame] at hnext
      rw [hhits, hbhoff]
      exact hnext.mono hsub hsound hkeep

end

end Loop

/-- The heads `mid` of the range from `lo` to `hi`, with what is recorded of them. -/
structure Laid (f : Focus) (lo hi : ℕ) (mid : List Entry) (hits : List (ℕ × ℕ)) : Prop where
  runs : Runs mid lo hi
  ordered : Extents.Ordered BufferHead.length mid
  marks : hits.map Prod.snd = mid.map Prod.fst
  entry : ∀ x ∈ mid, EntryOk x ∧ x.2.Filled
  deref : ∀ x ∈ mid, ∃ d, f.deref x.1 = .ok { x.2 with dontneed := d }

/-- Fragments for an extent of `len` bytes. -/
structure Frags (frags : List (ℕ × ℕ)) (len : ℕ) : Prop where
  pos : ∀ b ∈ frags, 0 < b.2
  sum : (frags.map Prod.snd).sum = len
  distinct : frags.Pairwise fun a b => a.1 ≠ b.1

section Extent

variable {f : Focus} {ex : ObjectExtent} {mid : List Entry} {hits : List (ℕ × ℕ)} {v : ℕ → UInt8}
  {m : SortedMap ℕ Bytes}

section

variable (h : Laid f ex.offset (ex.offset + ex.length) mid hits) (hlen : 0 < ex.length)
  (hfrags : Frags ex.bufferExtents ex.length)

include h hlen hfrags

theorem Laid.start :
    ∃ e mid' first hits' fo fl frags, mid = e :: mid' ∧ hits = (first, e.1) :: hits' ∧
      ex.bufferExtents = (fo, fl) :: frags ∧
      Heads f (ex.offset + ex.length) e mid' hits' ex.offset (ex.offset - e.1) ∧
      f.rmap hits ex m = (do
        let r ← f.rmapLoop (mid'.length + frags.length + 3) hits ex.bufferExtents ex.offset
          (ex.offset - e.1) 0 m
        assertThat (r.2.1 = [])
        assertThat (r.1 = ex.offset + ex.length)
        return r.2.2) := by
  cases mid with
  | nil =>
    have := h.runs
    simp only [Runs] at this
    omega
  | cons e mid =>
    obtain ⟨⟨first, k⟩, hits, rfl, rfl, htail⟩ := map_eq_cons_iff.mp h.marks
    cases hbe : ex.bufferExtents with
    | nil =>
      have hsum := hfrags.sum
      rw [hbe] at hsum
      simp only [map_nil, sum_nil] at hsum
      omega
    | cons b frags =>
      obtain ⟨fo, fl⟩ := b
      have hle := h.runs.1
      obtain ⟨d, hd⟩ := h.deref e mem_cons_self
      have hstart : e.2.start = e.1 := (h.entry e mem_cons_self).1.start
      refine ⟨e, mid, first, hits, fo, fl, frags, rfl, rfl, rfl,
        ⟨h.runs, h.ordered, by omega, htail, h.entry, h.deref⟩, ?_⟩
      have hlength : hits.length = mid.length := by
        simpa using congrArg List.length htail
      unfold rmap
      rw [hbe, ← hlength]
      simp only [hd, ok_bind, hstart, assertThat_of hle]

theorem rmap_spec (hstate : ∀ x ∈ mid, x.2.state.found = .hit ∨ x.2.state = .error)
    (hv : ∀ x ∈ mid, ∀ b, x.1 ≤ b → b < x.1 + x.2.length → (x.2.cell b).byte = v b)
    (hfree : ∀ b ∈ ex.bufferExtents, m.find? b.1 = none) :
    Copies mid (f.rmap hits ex m) (placed v ex.bufferExtents ex.offset m) := by
  obtain ⟨e, mid, first, hits, fo, fl, frags, rfl, rfl, hbe, hheads, hrun⟩ :=
    h.start (m := m) hlen hfrags
  have hpos := hfrags.pos
  have hsum := hfrags.sum
  have hdist := hfrags.distinct
  rw [hbe] at hpos hsum hdist hfree
  simp only [map_cons, sum_cons] at hsum
  rw [hrun, hbe]
  rcases rmapLoop_spec first _ hheads hstate hv (hpos _ mem_cons_self) (Nat.zero_le _) (by omega)
    (fun b hb => hpos b (mem_cons_of_mem _ hb)) (by rw [hfree _ mem_cons_self]; rfl)
    (fun b hb => hfree b (mem_cons_of_mem _ hb)) hdist le_rfl with ⟨hloop, hall⟩ |
      ⟨⟨err, hloop⟩, herr⟩
  · refine .inl ⟨?_, hall⟩
    rw [hloop]
    simp only [ok_bind, assertThat_of, Nat.sub_zero, placed]
    rfl
  · exact .inr ⟨⟨err, by rw [hloop]; rfl⟩, herr⟩

end

end Extent

end Focus

/-! ### The whole result -/

/-- The pieces of `m` tile `D` and hold the values of `g`. -/
structure Striped (g : ℕ → UInt8) (D : Set ℕ) (m : SortedMap ℕ Bytes) : Prop where
  covers : Tiling.Covers List.length D m
  holds : ∀ e ∈ m.entries, e.2 = slice g e.1 e.2.length

section Striped

variable {g : ℕ → UInt8} {D : Set ℕ} {m : SortedMap ℕ Bytes}

theorem striped_empty (g : ℕ → UInt8) : Striped g ∅ ∅ := ⟨Tiling.covers_empty, by simp⟩

theorem Striped.find?_eq_none (h : Striped g D m) {p : ℕ} (hp : p ∉ D) : m.find? p = none := by
  apply SortedMap.find?_eq_none
  intro e he hkey
  obtain ⟨hsize, hin⟩ := h.covers.inside e he
  exact hp (hkey ▸ hin e.1 le_rfl (by omega))

theorem Striped.insert (h : Striped g D m) {p n : ℕ} (hn : 0 < n)
    (hfree : ∀ i, p ≤ i → i < p + n → i ∉ D) :
    Striped g (D ∪ Set.Ico p (p + n)) (m.insert p (slice g p n)) := by
  constructor
  · have hcov := h.covers.insert (p := p) (v := slice g p n) (by rwa [length_slice])
      (by rwa [length_slice])
    rwa [length_slice] at hcov
  · intro e he
    rcases (SortedMap.mem_insert _ _ _).mp he with rfl | ⟨he, -⟩
    · simp only [length_slice]
    · exact h.holds e he

theorem Striped.placed {v} {frags} {x : ℕ} (h : Striped g D m)
    (hfill : Striper.StripedReadResult.Fillable D frags)
    (halong : Striper.Along (fun i => some (g i)) (fun j => some (v (x + j))) frags) :
    Striped g (D ∪ Striper.span frags) (Focus.placed v frags x m) := by
  induction frags generalizing x m D with
  | nil => simpa [Striper.span, Focus.placed] using h
  | cons b frags ih =>
    obtain ⟨fo, fl⟩ := b
    obtain ⟨hhere, hrest⟩ := halong
    have hslice : slice v x fl = slice g fo fl := by
      apply slice_congr
      intro j hj
      exact (Option.some.inj (hhere j hj)).symm
    rw [Striper.span_cons, ← Set.union_assoc]
    unfold Focus.placed
    rw [hslice]
    refine ih (h.insert (hfill.size _ mem_cons_self).1 hfill.head) hfill.tail ?_
    simpa only [Nat.add_assoc] using hrest

theorem joinPieces_spec {es : List (ℕ × Bytes)} {a b : ℕ} (h : Tiling.Chain List.length a es b)
    (hholds : ∀ e ∈ es, e.2 = slice g e.1 e.2.length) (bl : Bytes) :
    Reading.joinPieces es a bl = .ok (b, bl ++ slice g a (b - a)) := by
  induction h generalizing bl with
  | nil a => simp [Reading.joinPieces, slice]
  | @cons a b piece es hrest ih =>
    have hpiece := hholds (a, piece) mem_cons_self
    have hle := hrest.le
    rw [Reading.joinPieces, assertThat_of rfl, ok_bind,
      ih (fun e he => hholds e (mem_cons_of_mem _ he)), append_assoc]
    simp only at hpiece
    nth_rewrite 1 [hpiece]
    rw [slice_append, show piece.length + (b - (a + piece.length)) = b - a by omega]

theorem assertThat_bind {α : Type} (c : Prop) [Decidable c] (x : Run α) :
    (do assertThat c; x) = if c then x else .error .assertion := by
  unfold assertThat Fallible.check
  split_ifs <;> rfl

theorem readResult_striped {rd} {rs} {len : ℕ}
    (h : Striped g (Set.Iio len) rs.stripeMap) (hlen : 0 < len) (hsuccess : rs.success = true)
    (herror : rs.error = 0) :
    Reading.readResult rd rs =
      if len < 2 ^ 31 then .ok (len, if rd.wantBl then some (slice g 0 len) else none)
      else .error .assertion := by
  have hchain := h.covers.chain
  unfold Reading.readResult
  rw [if_neg (not_not.mpr hsuccess)]
  by_cases hwant : rd.wantBl = true
  · rw [if_pos ⟨hwant, herror⟩, joinPieces_spec hchain h.holds []]
    simp only [ok_bind, nil_append, Nat.sub_zero, if_pos hwant]
    exact assertThat_bind _ _
  · rw [if_neg (fun hc => hwant hc.1)]
    obtain ⟨es, p, hes⟩ : ∃ es p, rs.stripeMap.entries = es ++ [p] := by
      rcases eq_nil_or_concat rs.stripeMap.entries with hnil | ⟨es, p, hes⟩
      · obtain ⟨e, he, -⟩ := h.covers.covered 0 hlen
        rw [hnil] at he
        cases he
      · exact ⟨es, p, by simpa using hes⟩
    have hlast : rs.stripeMap.entries.getLast? = some p := by simp [hes]
    rw [hes] at hchain
    have hend : p.1 + p.2.length = len := hchain.end_eq
    have hendInt : (p.1 : ℤ) + p.2.length = len := by exact_mod_cast hend
    rw [hlast]
    simp only [hend, hendInt, herror, ne_eq, not_true_eq_false, if_false, if_neg hwant]
    exact assertThat_bind _ _

end Striped

end CephDokan.ObjectCacher
