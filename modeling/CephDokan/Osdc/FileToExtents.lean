import CephDokan.Lib.Striping
import CephDokan.Osdc.Striper

/-!
# Striping is a bijection

A valid layout is a striping shape, and the loop of `file_to_extents` collects the
blocks of the range by object. Because offsets of an object are handed out in file
order, the blocks of one object always continue its only extent, and cutting that
extent back into file ranges finds the same blocks.
-/

namespace CephDokan

open Fallible Striping List FileLayout

namespace FileLayout

theorem valid_iff (layout : FileLayout) : cephFileLayoutIsValid layout = true ↔
    layout.stripeUnit ≠ 0 ∧ layout.stripeUnit &&& (cephMinStripeUnit - 1) = 0 ∧
    layout.objectSize ≠ 0 ∧ layout.objectSize &&& (cephMinStripeUnit - 1) = 0 ∧
    layout.stripeUnit ≤ layout.objectSize ∧ layout.objectSize % layout.stripeUnit = 0 ∧
    layout.stripeCount ≠ 0 := by
  unfold cephFileLayoutIsValid
  dsimp only
  split_ifs <;> simp_all <;> omega

/-- The object that holds the byte of the file at `pos`. -/
def objectAt (layout : FileLayout) (pos : ℕ) : ℕ :=
  pos / layout.stripeUnit / layout.stripeCount / (layout.objectSize / layout.stripeUnit) *
    layout.stripeCount + pos / layout.stripeUnit % layout.stripeCount

/-- Where in its object the byte of the file at `pos` lies. -/
def offsetAt (layout : FileLayout) (pos : ℕ) : ℕ :=
  pos / layout.stripeUnit / layout.stripeCount % (layout.objectSize / layout.stripeUnit) *
    layout.stripeUnit + pos % layout.stripeUnit

variable {layout : FileLayout}

def shape (hv : cephFileLayoutIsValid layout = true) : Shape where
  unit := layout.stripeUnit
  count := layout.stripeCount
  depth := layout.objectSize / layout.stripeUnit
  unit_pos := Nat.pos_of_ne_zero (layout.valid_iff.mp hv).1
  count_pos := Nat.pos_of_ne_zero (layout.valid_iff.mp hv).2.2.2.2.2.2
  depth_pos := Nat.div_pos (layout.valid_iff.mp hv).2.2.2.2.1
    (Nat.pos_of_ne_zero (layout.valid_iff.mp hv).1)

variable (hv : cephFileLayoutIsValid layout = true)

theorem shape_capacity : (shape hv).capacity = layout.objectSize :=
  Nat.div_mul_cancel (Nat.dvd_of_mod_eq_zero (layout.valid_iff.mp hv).2.2.2.2.2.1)

theorem shape_object (pos : ℕ) : (shape hv).object pos = layout.objectAt pos := rfl

theorem shape_offset (pos : ℕ) : (shape hv).offset pos = layout.offsetAt pos := rfl

end FileLayout

namespace Striper

section Names

theorem digitChar_inj {a b : ℕ} (ha : a < 16) (hb : b < 16)
    (h : Nat.digitChar a = Nat.digitChar b) : a = b := by
  interval_cases a <;> interval_cases b <;> first | rfl | exact absurd h (by decide)

theorem map_digitChar_inj : ∀ {as bs : List ℕ}, (∀ a ∈ as, a < 16) → (∀ b ∈ bs, b < 16) →
    as.map Nat.digitChar = bs.map Nat.digitChar → as = bs
  | [], [], _, _, _ => rfl
  | [], _ :: _, _, _, h => by simp at h
  | _ :: _, [], _, _, h => by simp at h
  | a :: as, b :: bs, ha, hb, h => by
    simp only [map_cons, List.cons.injEq] at h
    rw [digitChar_inj (ha a (by simp)) (hb b (by simp)) h.1,
      map_digitChar_inj (fun x hx => ha x (by simp [hx])) (fun x hx => hb x (by simp [hx])) h.2]

theorem hex08_eq (n : ℕ) : hex08 n = (List.replicate (8 - (hexDigits n).length) 0 ++
    (Nat.digits 16 n).reverse).map Nat.digitChar := by
  simp [hex08, hexDigits, Nat.digitChar]

theorem hex08_injective : Function.Injective hex08 := by
  intro m n h
  have hlt : ∀ k l, ∀ a ∈ List.replicate l 0 ++ (Nat.digits 16 k).reverse, a < 16 := by
    intro k l a ha
    rcases mem_append.mp ha with ha | ha
    · rw [eq_of_mem_replicate ha]
      decide
    · exact Nat.digits_lt_base (by decide) (mem_reverse.mp ha)
  rw [hex08_eq, hex08_eq] at h
  have hd := congrArg (fun l => Nat.ofDigits 16 l.reverse)
    (map_digitChar_inj (hlt m _) (hlt n _) h)
  simpa [Nat.ofDigits_append, Nat.ofDigits_replicate_zero, Nat.ofDigits_digits] using hd

theorem objectFormat_injective (ino : ℕ) : Function.Injective (objectFormat ino) := by
  intro m n h
  have hl := String.ofList_injective h
  simpa using hex08_injective (by simpa using hl)

end Names

variable {layout : FileLayout}

theorem objectTruncateSize_ok (hv : cephFileLayoutIsValid layout = true) (objectno truncSize : ℕ) :
    ∃ n, objectTruncateSize layout objectno truncSize = .ok n := by
  have hle := (layout.valid_iff.mp hv).2.2.2.2.1
  simp only [objectTruncateSize, ge_iff_le, assertThat_of hle, ok_bind]
  split_ifs <;> exact ⟨_, rfl⟩

/-- The truncation size recorded in the extent of object `objectno`. -/
def truncateSizeOf (layout : FileLayout) (truncSize objectno : ℕ) : ℕ :=
  match objectTruncateSize layout objectno truncSize with
  | .ok n => n
  | .error _ => 0

/-- The extent of object `o` once the blocks `done` of `[offset, cur)` are collected. -/
def extentOf (s : Shape) (layout : FileLayout) (format : ℕ → String) (truncSize offset cur : ℕ)
    (done : List (ℕ × ℕ)) (o : ℕ) : ObjectExtent where
  oid := format o
  objectno := o
  offset := s.filled o offset
  length := s.filled o cur - s.filled o offset
  truncateSize := truncateSizeOf layout truncSize o
  pool := layout.pgPool
  bufferExtents := (done.filter (fun e => s.object e.1 = o)).map (fun e => (e.1 - offset, e.2))

/-- What the map of `file_to_extents` holds after the blocks of `[offset, cur)`: for
every object met so far one extent, for the others nothing. -/
structure Collected (s : Shape) (layout : FileLayout) (format : ℕ → String)
    (truncSize offset cur : ℕ) (done : List (ℕ × ℕ))
    (m : SortedMap String (List ObjectExtent)) : Prop where
  find : ∀ o, m.find? (format o) =
    if s.filled o cur = s.filled o offset then none
    else some [extentOf s layout format truncSize offset cur done o]
  keys : ∀ e ∈ m.entries, ∃ o, e.1 = format o
  blocks : ∀ o, s.filled o cur = s.filled o offset → done.filter (fun e => s.object e.1 = o) = []

section Loop

variable {s : Shape} {format : ℕ → String} {truncSize offset cur : ℕ} {done : List (ℕ × ℕ)}
  {m : SortedMap String (List ObjectExtent)}

section

variable (hm : Collected s layout format truncSize offset cur done m) {n : ℕ}

include hm

theorem addBlock_eq (hle : offset ≤ cur) (hu : cur % s.unit + n ≤ s.unit) :
    addBlock layout (format (s.object cur)) (s.object cur)
      (truncateSizeOf layout truncSize (s.object cur)) (s.offset cur) n (cur - offset)
      ((m.find? (format (s.object cur))).getD []) =
    [extentOf s layout format truncSize offset (cur + n) (done ++ [(cur, n)]) (s.object cur)] := by
  have hadd := s.filled_add (s.object cur) hu
  have hmono := s.filled_mono (s.object cur) hle
  have hoff := s.offset_eq_filled cur
  rw [if_pos rfl] at hadd
  rw [hm.find]
  split_ifs with hfresh
  · have hb := hm.blocks _ hfresh
    simp [addBlock, extentOf, hb, hoff, hfresh, hadd]
  · have hcont : s.filled (s.object cur) offset +
        (s.filled (s.object cur) cur - s.filled (s.object cur) offset) = s.offset cur := by
      omega
    have hlen : s.filled (s.object cur) cur - s.filled (s.object cur) offset + n =
        s.filled (s.object cur) (cur + n) - s.filled (s.object cur) offset := by
      omega
    simp [addBlock, extentOf, hcont, hlen]

theorem Collected.insert (hinj : Function.Injective format) (hle : offset ≤ cur) (hpos : 0 < n)
    (hu : cur % s.unit + n ≤ s.unit) :
    Collected s layout format truncSize offset (cur + n) (done ++ [(cur, n)])
      (m.insert (format (s.object cur))
        (addBlock layout (format (s.object cur)) (s.object cur)
          (truncateSizeOf layout truncSize (s.object cur)) (s.offset cur) n (cur - offset)
          ((m.find? (format (s.object cur))).getD []))) := by
  rw [addBlock_eq hm hle hu]
  constructor
  · intro o
    have hadd := s.filled_add o hu
    have hmono := s.filled_mono o hle
    by_cases ho : s.object cur = o
    · subst ho
      rw [if_pos rfl] at hadd
      rw [SortedMap.find?_insert_self, if_neg (by omega)]
    · rw [if_neg ho, Nat.add_zero] at hadd
      rw [SortedMap.find?_insert_of_ne _ _ (fun h => ho (hinj h).symm), hm.find, hadd]
      simp [extentOf, hadd, ho]
  · intro e he
    rcases (SortedMap.mem_insert _ _ _).mp he with rfl | ⟨he, -⟩
    · exact ⟨_, rfl⟩
    · exact hm.keys e he
  · intro o hfresh
    have hadd := s.filled_add o hu
    have hmono := s.filled_mono o hle
    have ho : s.object cur ≠ o := by
      rintro rfl
      rw [if_pos rfl] at hadd
      omega
    simp [ho, hm.blocks o (by omega)]

end

end Loop

theorem fileToExtentsLoop_spec (hv : cephFileLayoutIsValid layout = true) {format}
    (hinj : Function.Injective format) {truncSize offset : ℕ} :
    ∀ {fuel cur left : ℕ} {done} {m},
      left ≤ fuel → offset ≤ cur → cur + left < 2 ^ 64 →
      Collected (shape hv) layout format truncSize offset cur done m →
      ∃ m', fileToExtentsLoop layout format offset truncSize 0 fuel cur left m = .ok m' ∧
        Collected (shape hv) layout format truncSize offset (cur + left)
          (done ++ (shape hv).blocks cur left) m'
  | 0, cur, left, done, m, hfuel, _, _, hm => by
    obtain rfl : left = 0 := by omega
    exact ⟨m, by simp [fileToExtentsLoop], by simpa using hm⟩
  | fuel + 1, cur, left, done, m, hfuel, hle, hlt, hm => by
    by_cases hl : left = 0
    · subst hl
      exact ⟨m, by simp [fileToExtentsLoop], by simpa using hm⟩
    · have hmod := Nat.mod_lt cur (shape hv).unit_pos
      obtain ⟨n, hn⟩ : ∃ n, n = min left ((shape hv).unit - cur % (shape hv).unit) := ⟨_, rfl⟩
      have hpos : 0 < n := by omega
      have hu : cur % (shape hv).unit + n ≤ (shape hv).unit := by omega
      have hstep := hm.insert hinj hle hpos hu
      obtain ⟨m', hrun, hm'⟩ := fileToExtentsLoop_spec hv hinj (by omega : left - n ≤ fuel)
        (by omega) (by omega) hstep
      obtain ⟨t, ht⟩ := objectTruncateSize_ok hv ((shape hv).object cur) truncSize
      have htr : truncateSizeOf layout truncSize ((shape hv).object cur) = t := by
        simp [truncateSizeOf, ht]
      refine ⟨m', ?_, ?_⟩
      · rw [← hrun]
        have hxlen : (if left > layout.stripeUnit - cur % layout.stripeUnit then
            layout.stripeUnit - cur % layout.stripeUnit else left) = n := by
          rw [hn]
          simp only [shape]
          split_ifs <;> omega
        simp only [fileToExtentsLoop, if_neg hl, hxlen]
        rw [show objectTruncateSize layout (cur / layout.stripeUnit / layout.stripeCount /
          (layout.objectSize / layout.stripeUnit) * layout.stripeCount +
          cur / layout.stripeUnit % layout.stripeCount) truncSize = .ok t from ht]
        rw [u64_of_lt (n := cur + n) (by omega), u64_of_lt (n := cur - offset + 0) (by omega)]
        rw [htr]
        rfl
      · rw [(shape hv).blocks_pos hl, ← hn]
        have hend : cur + n + (left - n) = cur + left := by omega
        rw [hend] at hm'
        simpa using hm'

section Assimilate

variable {s : Shape} {format : ℕ → String} {truncSize offset cur : ℕ} {done : List (ℕ × ℕ)}
  {m : SortedMap String (List ObjectExtent)}

section

variable (hm : Collected s layout format truncSize offset cur done m)

include hm

theorem Collected.entry {e} (he : e ∈ m.entries) :
    ∃ o, s.filled o cur ≠ s.filled o offset ∧
      e = (format o, [extentOf s layout format truncSize offset cur done o]) := by
  obtain ⟨o, ho⟩ := hm.keys e he
  have hf := hm.find o
  rw [← ho, m.find?_of_mem he] at hf
  split_ifs at hf with hfresh
  exact ⟨o, hfresh, Prod.ext ho (Option.some.inj hf)⟩

theorem Collected.mem_assimilateExtents {ex} :
    ex ∈ assimilateExtents m ↔ ∃ o, s.filled o cur ≠ s.filled o offset ∧
      ex = extentOf s layout format truncSize offset cur done o := by
  simp only [assimilateExtents, mem_flatMap]
  constructor
  · rintro ⟨e, he, hex⟩
    obtain ⟨o, hfresh, rfl⟩ := hm.entry he
    exact ⟨o, hfresh, by simpa using hex⟩
  · rintro ⟨o, hfresh, rfl⟩
    have hf := hm.find o
    rw [if_neg hfresh] at hf
    exact ⟨_, m.mem_of_find? hf, by simp⟩

theorem Collected.pairwise_objectno :
    (assimilateExtents m).Pairwise (fun a b => a.objectno ≠ b.objectno) := by
  rw [assimilateExtents, pairwise_flatMap]
  constructor
  · intro e he
    obtain ⟨o, -, rfl⟩ := hm.entry he
    simp
  · refine m.sorted.imp_of_mem ?_
    intro a b ha hb hlt x hx y hy
    obtain ⟨o, -, rfl⟩ := hm.entry ha
    obtain ⟨o', -, rfl⟩ := hm.entry hb
    simp only [mem_singleton] at hx hy
    subst hx hy
    rintro (heq : o = o')
    subst heq
    exact lt_irrefl _ hlt

end

end Assimilate

/-- Cutting an object range into blocks gives the blocks of the file range behind it. -/
theorem extentToFileLoop_eq (hv : cephFileLayoutIsValid layout = true) (o : ℕ) :
    ∀ {fuel x off len : ℕ} (acc : List (ℕ × ℕ)), len ≤ fuel →
      (len ≠ 0 → x = off % layout.stripeUnit) →
      (∀ e ∈ (shape hv).objectBlocks o off len, e.1 + e.2 < 2 ^ 64) →
      extentToFileLoop layout o fuel x off len acc = .ok (acc ++ (shape hv).objectBlocks o off len)
  | 0, x, off, len, acc, hfuel, _, _ => by
    obtain rfl : len = 0 := by omega
    simp [extentToFileLoop]
  | fuel + 1, x, off, len, acc, hfuel, hx, hlt => by
    by_cases hl : len = 0
    · subst hl
      simp [extentToFileLoop]
    · obtain ⟨n, hn⟩ : ∃ n, n = min len (layout.stripeUnit - off % layout.stripeUnit) := ⟨_, rfl⟩
      have hmod : off % layout.stripeUnit < layout.stripeUnit := Nat.mod_lt off (shape hv).unit_pos
      have hcons : (shape hv).objectBlocks o off len =
          ((shape hv).position o off, n) ::
            (shape hv).objectBlocks o (off + n) (len - n) := by
        rw [hn]
        exact (shape hv).objectBlocks_pos o off hl
      have hhere : (shape hv).position o off + n < 2 ^ 64 :=
        hlt _ (by rw [hcons]; exact mem_cons_self)
      have haligned : len - n ≠ 0 → 0 = (off + n) % layout.stripeUnit := by
        intro hmore
        have hfull : off + n = layout.stripeUnit * (off / layout.stripeUnit + 1) := by
          have := Nat.div_add_mod off layout.stripeUnit
          rw [Nat.mul_add]
          omega
        rw [hfull, Nat.mul_mod_right]
      have hnext := extentToFileLoop_eq hv o (acc ++ [((shape hv).position o off, n)])
        (by omega : len - n ≤ fuel) haligned
        (fun e he => hlt e (by rw [hcons]; exact mem_cons_of_mem _ he))
      have hstripe := (shape hv).position_bounds o off
      simp only [shape] at hstripe hhere
      simp only [extentToFileLoop, if_neg hl, hx hl, ← hn]
      rw [u64_of_lt (n := off / layout.stripeUnit + _) (by omega), u64_of_lt (n := _ * _ + o % _)
        (by omega), u64_of_lt (n := _ + off % _) (by omega), u64_of_lt (n := off + n) (by omega)]
      rw [hcons]
      simpa [Shape.position, shape] using hnext

section Range

variable (hv : cephFileLayoutIsValid layout = true) (ino offset len truncSize : ℕ)

/-- The extent that `file_to_extents` returns for object `o`, if the range meets `o`. -/
def rangeExtent (o : ℕ) : ObjectExtent :=
  extentOf (shape hv) layout (objectFormat ino) truncSize offset (offset + len)
    ((shape hv).blocks offset len) o

/-- Whether the range `[offset, offset + len)` of the file has a byte in object `o`. -/
def Touches (layout : FileLayout) (offset len o : ℕ) : Prop :=
  ∃ p, offset ≤ p ∧ p < offset + len ∧ layout.objectAt p = o

variable {offset len}

theorem touches_iff (o : ℕ) : Touches layout offset len o ↔
    (shape hv).filled o offset < (shape hv).filled o (offset + len) :=
  ((shape hv).filled_lt_iff o).symm

variable (offset len) in
/-- `exs` has one extent for every object the range touches. -/
structure RangeExtents (exs : List ObjectExtent) : Prop where
  mem : ∀ ex, ex ∈ exs ↔ ∃ o, Touches layout offset len o ∧
    ex = rangeExtent hv ino offset len truncSize o
  pair : exs.Pairwise (fun a b => a.objectno ≠ b.objectno)

theorem fileToExtents_spec (hlen : 0 < len) (hrange : offset + len < 2 ^ 64) :
    ∃ exs, fileToExtents ino layout offset len truncSize = .ok exs ∧
      RangeExtents hv ino offset len truncSize exs := by
  have hstart : Collected (shape hv) layout (objectFormat ino) truncSize offset offset
      [] ∅ := by
    constructor
    · intro o
      rw [if_pos rfl]
      rfl
    · simp
    · simp
  obtain ⟨m, hrun, hm⟩ := fileToExtentsLoop_spec hv (objectFormat_injective ino) (le_refl len)
    (le_refl offset) hrange hstart
  rw [nil_append] at hm
  refine ⟨assimilateExtents m, ?_, ?_, hm.pairwise_objectno⟩
  · have hsu := (layout.valid_iff.mp hv).2.2.2.2.1
    simp only [fileToExtents, fileToExtentsFormat, assertThat_of hlen, assertThat_of hsu,
      ok_bind, ge_iff_le, gt_iff_lt, hrun]
    rfl
  · intro ex
    rw [hm.mem_assimilateExtents]
    apply exists_congr
    intro o
    have hmono := (shape hv).filled_mono o (Nat.le_add_right offset len)
    rw [touches_iff hv, lt_iff_le_and_ne, and_iff_right hmono, ne_comm]
    rfl

namespace RangeExtents

variable {hv ino truncSize} {exs : List ObjectExtent}
  (h : RangeExtents hv ino offset len truncSize exs)

include h

theorem perm {exs'} (hp : exs'.Perm exs) :
    RangeExtents hv ino offset len truncSize exs' :=
  ⟨fun ex => hp.mem_iff.trans (h.mem ex), (hp.pairwise_iff Ne.symm).mpr h.pair⟩

theorem mem_objectAt {i : ℕ} (hi : i < len) :
    rangeExtent hv ino offset len truncSize (layout.objectAt (offset + i)) ∈ exs :=
  (h.mem _).mpr ⟨_, ⟨offset + i, by omega, by omega, rfl⟩, rfl⟩

theorem oids : exs.Pairwise (fun a b => a.oid ≠ b.oid) := by
  refine h.pair.imp_of_mem ?_
  intro a b ha hb hne heq
  obtain ⟨o, -, rfl⟩ := (h.mem a).mp ha
  obtain ⟨o', -, rfl⟩ := (h.mem b).mp hb
  exact hne (objectFormat_injective ino heq)

end RangeExtents

theorem mem_rangeExtent {o : ℕ} {b}
    (hb : b ∈ (rangeExtent hv ino offset len truncSize o).bufferExtents) :
    ∃ e ∈ (shape hv).blocks offset len, layout.objectAt e.1 = o ∧ b = (e.1 - offset, e.2) := by
  obtain ⟨e, he, rfl⟩ := mem_map.mp hb
  rw [mem_filter, decide_eq_true_eq] at he
  exact ⟨e, he.1, he.2, rfl⟩

theorem rangeExtent_bufferExtents_sum (o : ℕ) :
    ((rangeExtent hv ino offset len truncSize o).bufferExtents.map Prod.snd).sum =
      (rangeExtent hv ino offset len truncSize o).length := by
  have h := (shape hv).blocks_filter_sum o offset len
  simpa [rangeExtent, extentOf, Function.comp_def] using h

theorem rangeExtent_inside {o : ℕ} (ho : Touches layout offset len o) :
    0 < (rangeExtent hv ino offset len truncSize o).length ∧
      (rangeExtent hv ino offset len truncSize o).offset +
        (rangeExtent hv ino offset len truncSize o).length ≤ layout.objectSize := by
  have hlt := (touches_iff hv o).mp ho
  have hcap := (shape hv).filled_le_capacity o (offset + len)
  rw [shape_capacity] at hcap
  simp only [rangeExtent, extentOf]
  omega

theorem extentToFile_rangeExtent (hrange : offset + len < 2 ^ 64) (o : ℕ) :
    extentToFile layout o (rangeExtent hv ino offset len truncSize o).offset
        (rangeExtent hv ino offset len truncSize o).length =
      .ok ((rangeExtent hv ino offset len truncSize o).bufferExtents.map
        (fun b => (offset + b.1, b.2))) := by
  have hsu := (layout.valid_iff.mp hv).2.2.2.2.1
  have hfilter := (shape hv).blocks_filter o offset len
  have hblock : ∀ e ∈ ((shape hv).blocks offset len).filter
      (fun e => (shape hv).object e.1 = o), offset ≤ e.1 ∧ e.1 + e.2 ≤ offset + len := by
    intro e he
    exact ((shape hv).mem_blocks (mem_of_mem_filter he)).2.2
  simp only [extentToFile, ge_iff_le, assertThat_of hsu, ok_bind]
  rw [extentToFileLoop_eq hv o [] (le_refl _) (fun _ => rfl)]
  · simp only [rangeExtent, extentOf, nil_append, ← hfilter, map_map]
    congr 1
    refine (map_id _).symm.trans (map_congr_left ?_)
    intro e he
    have := hblock e he
    exact Prod.ext (by simp; omega) rfl
  · intro e he
    have := hblock e (hfilter ▸ he)
    omega

theorem pairwise_bufferExtents (o : ℕ) :
    (rangeExtent hv ino offset len truncSize o).bufferExtents.Pairwise
      (fun a b => a.1 + a.2 ≤ b.1) := by
  have hpair := ((shape hv).blocks_pairwise offset len).filter
    (fun e => (shape hv).object e.1 = o)
  refine pairwise_map.mpr (hpair.imp_of_mem ?_)
  intro a b ha hb hab
  have h1 := ((shape hv).mem_blocks (mem_of_mem_filter ha)).2.2
  omega

theorem disjoint_bufferExtents {o o' : ℕ} (hne : o ≠ o') {a b}
    (ha : a ∈ (rangeExtent hv ino offset len truncSize o).bufferExtents)
    (hb : b ∈ (rangeExtent hv ino offset len truncSize o').bufferExtents) :
    a.1 + a.2 ≤ b.1 ∨ b.1 + b.2 ≤ a.1 := by
  obtain ⟨e, he, heo, rfl⟩ := mem_rangeExtent hv ino truncSize ha
  obtain ⟨f, hf, hfo, rfl⟩ := mem_rangeExtent hv ino truncSize hb
  have hef : e ≠ f := by
    rintro rfl
    exact hne (heo.symm.trans hfo)
  have hpos := (shape hv).mem_blocks he
  have hposf := (shape hv).mem_blocks hf
  have hsym : Std.Symm (fun a b : ℕ × ℕ => a.1 + a.2 ≤ b.1 ∨ b.1 + b.2 ≤ a.1) :=
    ⟨fun _ _ => Or.symm⟩
  have hpair : ((shape hv).blocks offset len).Pairwise
      (fun a b : ℕ × ℕ => a.1 + a.2 ≤ b.1 ∨ b.1 + b.2 ≤ a.1) :=
    ((shape hv).blocks_pairwise offset len).imp .inl
  have hdisjoint := hpair.forall he hf hef
  omega

theorem exists_bufferExtent {i : ℕ} (hi : i < len) :
    ∃ b ∈ (rangeExtent hv ino offset len truncSize (layout.objectAt (offset + i))).bufferExtents,
      b.1 ≤ i ∧ i < b.1 + b.2 := by
  obtain ⟨e, he, h1, h2⟩ := (shape hv).exists_mem_blocks
    (Nat.le_add_right offset i) (Nat.add_lt_add_left hi offset)
  have hblk := (shape hv).mem_blocks he
  have hobj : (shape hv).object e.1 = layout.objectAt (offset + i) := by
    have hadd := (shape hv).object_add (p := e.1) (n := offset + i - e.1) (by omega)
    rw [← shape_object hv, ← hadd]
    congr 1
    omega
  refine ⟨(e.1 - offset, e.2), ?_, ?_⟩
  · refine mem_map.mpr ⟨e, ?_, rfl⟩
    rw [mem_filter, decide_eq_true_eq]
    exact ⟨he, hobj⟩
  · omega

end Range

/-- The extents `exs` cut the range `[offset, offset + len)` of the file into the ranges
of the objects that hold it. The pieces of an extent are positions in the range, and
`extent_to_file` finds them again. -/
structure StripesRange (layout : FileLayout) (offset len : ℕ) (exs : List ObjectExtent) :
    Prop where
  one_per_object : exs.Pairwise (fun a b => a.objectno ≠ b.objectno)
  objects : ∀ o, (∃ ex ∈ exs, ex.objectno = o) ↔ Touches layout offset len o
  inside : ∀ ex ∈ exs, 0 < ex.length ∧ ex.offset + ex.length ≤ layout.objectSize
  pieces_inside : ∀ b ∈ exs.flatMap (fun ex => ex.bufferExtents), 0 < b.2 ∧ b.1 + b.2 ≤ len
  pieces_disjoint : (exs.flatMap (fun ex => ex.bufferExtents)).Pairwise
    (fun a b => a.1 + a.2 ≤ b.1 ∨ b.1 + b.2 ≤ a.1)
  pieces_cover : ∀ i < len, ∃ b ∈ exs.flatMap (fun ex => ex.bufferExtents), b.1 ≤ i ∧ i < b.1 + b.2
  pieces_sum : ∀ ex ∈ exs, (ex.bufferExtents.map Prod.snd).sum = ex.length
  extentToFile_eq : ∀ ex ∈ exs, extentToFile layout ex.objectno ex.offset ex.length =
    .ok (ex.bufferExtents.map (fun b => (offset + b.1, b.2)))

/-- Striping is a bijection between file ranges and object extents. -/
theorem fileToExtents_bijection (layout : FileLayout) (hv : cephFileLayoutIsValid layout = true)
    (ino offset len truncSize : ℕ) (hlen : 0 < len) (hrange : offset + len < 2 ^ 64) :
    ∃ exs, fileToExtents ino layout offset len truncSize = .ok exs ∧
      StripesRange layout offset len exs := by
  obtain ⟨exs, hrun, hexs⟩ := fileToExtents_spec hv ino truncSize hlen hrange
  have hmem := hexs.mem
  refine ⟨exs, hrun, hexs.pair, ?_, ?_, ?_, ?_, ?_, ?_, ?_⟩
  · intro o
    constructor
    · intro ⟨ex, hex, ho⟩
      subst ho
      obtain ⟨o, ho, rfl⟩ := (hmem ex).mp hex
      exact ho
    · intro ho
      exact ⟨_, (hmem _).mpr ⟨o, ho, rfl⟩, rfl⟩
  · intro ex hex
    obtain ⟨o, ho, rfl⟩ := (hmem ex).mp hex
    exact rangeExtent_inside hv ino truncSize ho
  · intro b hb
    obtain ⟨ex, hex, hb⟩ := mem_flatMap.mp hb
    obtain ⟨o, ho, rfl⟩ := (hmem ex).mp hex
    obtain ⟨e, he, -, rfl⟩ := mem_rangeExtent hv ino truncSize hb
    have hblk := (shape hv).mem_blocks he
    omega
  · rw [pairwise_flatMap]
    constructor
    · intro ex hex
      obtain ⟨o, ho, rfl⟩ := (hmem ex).mp hex
      exact (pairwise_bufferExtents hv ino truncSize o).imp .inl
    · apply hexs.pair.imp_of_mem
      intro ex ex' hex hex' hne a ha b hb
      obtain ⟨o, ho, rfl⟩ := (hmem ex).mp hex
      obtain ⟨o', ho', rfl⟩ := (hmem ex').mp hex'
      exact disjoint_bufferExtents hv ino truncSize hne ha hb
  · intro i hi
    obtain ⟨b, hb, hin⟩ := exists_bufferExtent hv ino truncSize hi
    exact ⟨b, mem_flatMap.mpr ⟨_, hexs.mem_objectAt hi, hb⟩, hin⟩
  · intro ex hex
    obtain ⟨o, ho, rfl⟩ := (hmem ex).mp hex
    exact rangeExtent_bufferExtents_sum hv ino truncSize o
  · intro ex hex
    obtain ⟨o, ho, rfl⟩ := (hmem ex).mp hex
    exact extentToFile_rangeExtent hv ino truncSize hrange o

theorem fileToExtents_bijection_twoStripes :
    let layout : FileLayout :=
      { stripeUnit := 65536, stripeCount := 2, objectSize := 131072, pgPool := 0 }
    ∃ exs, fileToExtents 1 layout 65535 131074 0 = .ok exs ∧
      StripesRange layout 65535 131074 exs :=
  fileToExtents_bijection _ (by decide) 1 65535 131074 0 (by decide) (by decide)

end Striper

end CephDokan
