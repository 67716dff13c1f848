import CephDokan.Osdc.FileToExtents
import CephDokan.Osdc.SparseReply

/-!
# Striped reads are reassembled exactly

Replies to the extents of a range fill the whole buffer, whatever their order, because
the buffer extents of the objects partition it and each runs through its object from
front to back. The assembled result is the content of the file.
-/

namespace CephDokan.Striper

open Fallible Striping List FileLayout StripedReadResult

/-- The byte at object offset `x` that a sparse reply `bl` with the ranges `s` contains. -/
def mapByte : List (ℕ × ℕ) → Bytes → ℕ → Option UInt8
  | [], _, _ => none
  | e :: s, bl, x => if e.1 ≤ x ∧ x < e.1 + e.2 then bl[x - e.1]? else mapByte s (bl.drop e.2) x

namespace Reply

/-- The byte at object offset `x` that the reply to the read of `ex` contains. -/
def byte (ex : ObjectExtent) : Reply → ℕ → Option UInt8
  | .dense bl, x => bl[x - ex.offset]?
  | .sparse bl blMap, x => mapByte blMap.entries bl x

/-- A reply to the read of `ex`: dense and no longer than the extent, or sparse with
ranges that are sorted, do not overlap, lie in the extent and have their bytes in `bl`. -/
def Fits (ex : ObjectExtent) : Reply → Prop
  | .dense bl => bl.length ≤ ex.length
  | .sparse bl blMap =>
    (∀ e ∈ blMap.entries, ex.offset ≤ e.1 ∧ e.1 + e.2 ≤ ex.offset + ex.length) ∧
    blMap.entries.Pairwise (fun a b => a.2 = 0 ∨ b.2 = 0 ∨ a.1 + a.2 ≤ b.1) ∧
    bl.length = (blMap.entries.map Prod.snd).sum

end Reply

/-- What the replies say about byte `i` of the range that starts at `offset`. -/
def fileByte (layout : FileLayout) (offset : ℕ) (replies : List (ObjectExtent × Reply)) (i : ℕ) :
    Option UInt8 :=
  match replies.find? (fun e => e.1.objectno = layout.objectAt (offset + i)) with
  | some (ex, reply) => reply.byte ex (layout.offsetAt (offset + i))
  | none => none

theorem mapByte_eq_restByte {s} {off : ℕ} (bl : Bytes) (x : ℕ)
    (h : ∀ e ∈ s, off ≤ e.1) : mapByte s bl x = restByte s off bl x := by
  induction s generalizing bl with
  | nil => rfl
  | cons e s ih =>
    rw [mapByte, restByte, max_eq_left (h e mem_cons_self),
      ih _ (fun f hf => h f (mem_cons_of_mem _ hf)), Nat.add_sub_cancel_left]

theorem Along.congr {g g' h} {pieces}
    (hg : ∀ i ∈ span pieces, g i = g' i) (ha : Along g h pieces) : Along g' h pieces := by
  induction pieces generalizing h with
  | nil => trivial
  | cons b rest ih =>
    refine ⟨fun j hj => ?_, ih (fun i hi => hg i (by rw [span_cons]; exact .inr hi)) ha.2⟩
    rw [← ha.1 j hj]
    refine (hg _ ?_).symm
    rw [span_cons]
    exact .inl ⟨Nat.le_add_right _ _, by omega⟩

variable {x : ℕ}

section Extent

variable {layout : FileLayout} (hv : cephFileLayoutIsValid layout = true)

theorem along_objectBlocks (h : ℕ → Option UInt8) (o offset : ℕ) {len : ℕ}
    (hcap : x + len ≤ (shape hv).capacity)
    (hlo : ∀ e ∈ (shape hv).objectBlocks o x len, offset ≤ e.1) :
    Along (fun i => h (layout.offsetAt (offset + i))) (fun j => h (x + j))
      (((shape hv).objectBlocks o x len).map (fun e => (e.1 - offset, e.2))) := by
  induction len using Nat.strong_induction_on generalizing x with
  | _ len ih =>
    by_cases hl : len = 0
    · subst hl
      simp [Along]
    · obtain ⟨n, hn⟩ : ∃ n, n = min len ((shape hv).unit - x % (shape hv).unit) := ⟨_, rfl⟩
      have hmod := Nat.mod_lt x (shape hv).unit_pos
      rw [(shape hv).objectBlocks_pos o x hl, ← hn] at hlo ⊢
      have hstart := hlo _ mem_cons_self
      simp only [map_cons, Along]
      constructor
      · intro j hj
        have hpos : offset + ((shape hv).position o x - offset + j) =
            (shape hv).position o x + j := by omega
        rw [hpos, ← shape_offset hv, (shape hv).offset_add (by
          rw [(shape hv).position_mod]
          omega), (shape hv).offset_position (by omega)]
      · have hrest := ih (len - n) (by omega) (x := x + n) (by omega)
          (fun e he => hlo e (mem_cons_of_mem _ he))
        simpa only [Nat.add_assoc] using hrest

theorem along_rangeExtent (h : ℕ → Option UInt8) (ino offset len truncSize o : ℕ) :
    Along (fun i => h (layout.offsetAt (offset + i)))
      (fun j => h ((rangeExtent hv ino offset len truncSize o).offset + j))
      (rangeExtent hv ino offset len truncSize o).bufferExtents := by
  have hfilter := (shape hv).blocks_filter o offset len
  have hcap := (shape hv).filled_le_capacity o (offset + len)
  have hmono := (shape hv).filled_mono o (Nat.le_add_right offset len)
  simp only [rangeExtent, extentOf]
  rw [hfilter]
  apply along_objectBlocks hv
  · omega
  · intro e he
    rw [← hfilter] at he
    exact ((shape hv).mem_blocks (mem_of_mem_filter he)).2.2.1

end Extent

variable {blMap : SortedMap ℕ ℕ} {reply : Reply} {e : ObjectExtent × Reply}

section Replies

variable {g : ℕ → Option UInt8} {D : Set ℕ} {r : StripedReadResult} {ex : ObjectExtent}

theorem Reply.sparseRest {bl} (hfits : (Reply.sparse bl blMap).Fits ex)
    (hbound : ex.offset + ex.length < 2 ^ 64) : SparseRest blMap.entries ex.offset bl := by
  obtain ⟨hin, hapart, hlen⟩ := hfits
  refine ⟨?_, ?_, ?_, hapart, ?_⟩
  · intro e he
    have := hin e he
    omega
  · intro e he
    exact .inr (hin e (mem_of_mem_tail he)).1
  · intro e he
    have := hin e (mem_of_mem_head? he)
    exact .inr (by omega)
  · rw [hlen]
    congr 1
    apply map_congr_left
    intro e he
    have := hin e he
    omega

theorem addReply_spec (hr : StripedReadResult.Gathered g D r)
    (hfill : StripedReadResult.Fillable D ex.bufferExtents) (hfits : reply.Fits ex)
    (hbound : ex.offset + ex.length < 2 ^ 64)
    (halong : Along g (fun j => reply.byte ex (ex.offset + j)) ex.bufferExtents) :
    ∃ r', addReply r ex reply = .ok r' ∧
      StripedReadResult.Gathered g (D ∪ span ex.bufferExtents) r' := by
  cases reply with
  | dense bl =>
    simp only [Reply.byte, Nat.add_sub_cancel_left] at halong
    obtain ⟨r', bl', hrun, hgot⟩ := addPartialResult_spec hr hfill halong
    exact ⟨r', by simp only [addReply, hrun, ok_bind, pure_eq_ok], hgot⟩
  | sparse bl blMap =>
    have hsame : (fun j => (Reply.sparse bl blMap).byte ex (ex.offset + j)) =
        fun j => restByte blMap.entries ex.offset bl (ex.offset + j) := by
      funext j
      exact mapByte_eq_restByte bl _ (fun e he => (hfits.1 e he).1)
    rw [hsame] at halong
    obtain ⟨r', bl', hrun, hgot⟩ := addSparseLoop_spec hr hfill
      (Reply.sparseRest hfits hbound) (.inr rfl) halong
    refine ⟨r', ?_, hgot⟩
    simp only [addReply, StripedReadResult.addPartialSparseResult, hrun, ok_bind, pure_eq_ok]

/-- Replies that can be added to a result that covers `D`, in the order of the list. -/
structure Answers (g : ℕ → Option UInt8) (D : Set ℕ) (replies : List (ObjectExtent × Reply)) :
    Prop where
  fill : ∀ e ∈ replies, StripedReadResult.Fillable D e.1.bufferExtents
  fits : ∀ e ∈ replies, e.2.Fits e.1
  bound : ∀ e ∈ replies, e.1.offset + e.1.length < 2 ^ 64
  along : ∀ e ∈ replies, Along g (fun j => e.2.byte e.1 (e.1.offset + j)) e.1.bufferExtents
  apart : replies.Pairwise
    (fun e f => ∀ i ∈ span e.1.bufferExtents, i ∉ span f.1.bufferExtents)

variable {replies : List (ObjectExtent × Reply)}

theorem Answers.tail (h : Answers g D (e :: replies)) :
    Answers g (D ∪ span e.1.bufferExtents) replies := by
  obtain ⟨hfirst, hrest⟩ := pairwise_cons.mp h.apart
  refine ⟨?_, fun f hf => h.fits f (mem_cons_of_mem _ hf),
    fun f hf => h.bound f (mem_cons_of_mem _ hf),
    fun f hf => h.along f (mem_cons_of_mem _ hf), hrest⟩
  intro f hf
  have hfill := h.fill f (mem_cons_of_mem _ hf)
  refine ⟨hfill.size, ?_, hfill.order⟩
  intro i hi hmem
  cases hmem with
  | inl hD => exact hfill.free i hi hD
  | inr he => exact hfirst f hf i he hi

theorem addReplies_spec (hr : StripedReadResult.Gathered g D r) (h : Answers g D replies) :
    ∃ r', addReplies r replies = .ok r' ∧ StripedReadResult.Gathered g
      (D ∪ {i | ∃ e ∈ replies, i ∈ span e.1.bufferExtents}) r' := by
  induction replies generalizing r D with
  | nil => exact ⟨r, rfl, by simpa using hr⟩
  | cons e replies ih =>
    obtain ⟨r', hrun, hgot⟩ := addReply_spec hr (h.fill e mem_cons_self)
      (h.fits e mem_cons_self) (h.bound e mem_cons_self) (h.along e mem_cons_self)
    obtain ⟨r'', hrest, hall⟩ := ih hgot h.tail
    refine ⟨r'', ?_, ?_⟩
    · simp only [addReplies, hrun, ok_bind]
      exact hrest
    · have hset : D ∪ {i | ∃ f ∈ e :: replies, i ∈ span f.1.bufferExtents} =
          D ∪ span e.1.bufferExtents ∪ {i | ∃ f ∈ replies, i ∈ span f.1.bufferExtents} := by
        ext i
        simp [or_assoc]
      rwa [hset]

end Replies

section Range

variable {layout : FileLayout} (hv : cephFileLayoutIsValid layout = true)
  {ino offset len truncSize : ℕ} {i o : ℕ} {ex : ObjectExtent} {bl : Bytes}

theorem objectAt_of_mem_span
    (hi : i ∈ span (rangeExtent hv ino offset len truncSize o).bufferExtents) :
    layout.objectAt (offset + i) = o := by
  obtain ⟨b, hb, h1, h2⟩ := hi
  obtain ⟨e, he, heo, rfl⟩ := mem_rangeExtent hv ino truncSize hb
  have hblk := (shape hv).mem_blocks he
  rw [← heo, ← shape_object hv, ← shape_object hv,
    ← (shape hv).object_add (p := e.1) (n := offset + i - e.1) (by omega)]
  congr 1
  omega

theorem lt_of_mem_span
    (hi : i ∈ span (rangeExtent hv ino offset len truncSize o).bufferExtents) : i < len := by
  obtain ⟨b, hb, h1, h2⟩ := hi
  obtain ⟨e, he, -, rfl⟩ := mem_rangeExtent hv ino truncSize hb
  have hblk := (shape hv).mem_blocks he
  omega

variable (ino offset truncSize) in
theorem offsetAt_mem_rangeExtent (hi : i < len) :
    (rangeExtent hv ino offset len truncSize (layout.objectAt (offset + i))).offset ≤
        layout.offsetAt (offset + i) ∧
      layout.offsetAt (offset + i) <
        (rangeExtent hv ino offset len truncSize (layout.objectAt (offset + i))).offset +
          (rangeExtent hv ino offset len truncSize (layout.objectAt (offset + i))).length := by
  have hoff := (shape hv).offset_eq_filled (offset + i)
  rw [shape_offset hv, shape_object hv] at hoff
  have hlo := (shape hv).filled_mono (layout.objectAt (offset + i))
    (Nat.le_add_right offset i)
  have hhi : (shape hv).filled (layout.objectAt (offset + i)) (offset + i) <
      (shape hv).filled (layout.objectAt (offset + i)) (offset + len) :=
    ((shape hv).filled_lt_iff _).mpr ⟨offset + i, le_rfl, by omega, rfl⟩
  simp only [rangeExtent, extentOf]
  omega

variable {b : ℕ}

variable (ino truncSize) in
theorem exists_position (h1 : (rangeExtent hv ino offset len truncSize o).offset ≤ b)
    (h2 : b < (rangeExtent hv ino offset len truncSize o).offset +
      (rangeExtent hv ino offset len truncSize o).length) :
    ∃ i < len, layout.objectAt (offset + i) = o ∧ layout.offsetAt (offset + i) = b := by
  have hcap := (shape hv).filled_le_capacity o (offset + len)
  simp only [rangeExtent, extentOf] at h1 h2
  have hb : b < (shape hv).capacity := by omega
  have hfilled := (shape hv).filled_position (o := o) hb
  have hobject := (shape hv).object_position (o := o) hb
  have hlo : offset ≤ (shape hv).position o b := by
    -- a byte of the object before the range would be counted as filled
    by_contra hlt
    have hone := ((shape hv).filled_lt_iff o).mpr ⟨_, le_rfl, Nat.lt_of_not_le hlt, hobject⟩
    omega
  have hhi : (shape hv).position o b < offset + len := by
    by_contra hge
    have hle := (shape hv).filled_mono o (Nat.le_of_not_lt hge)
    omega
  refine ⟨(shape hv).position o b - offset, by omega, ?_⟩
  rw [Nat.add_sub_cancel' hlo, ← shape_object hv, ← shape_offset hv]
  exact ⟨hobject, (shape hv).offset_position hb⟩

/-- `replies` has one reply for each of the extents `exs`, in any order. -/
structure RepliesTo (exs : List ObjectExtent) (replies : List (ObjectExtent × Reply)) : Prop where
  extents : (replies.map Prod.fst).Perm exs
  fits : ∀ e ∈ replies, e.2.Fits e.1

theorem find?_objectno {replies : List (ObjectExtent × Reply)}
    (hpair : replies.Pairwise (fun a b => a.1.objectno ≠ b.1.objectno)) (he : e ∈ replies) :
    replies.find? (fun f => f.1.objectno = e.1.objectno) = some e := by
  induction replies with
  | nil => simp at he
  | cons f replies ih =>
    obtain ⟨hfirst, hrest⟩ := pairwise_cons.mp hpair
    rcases mem_cons.mp he with rfl | he
    · simp
    · rw [find?_cons_of_neg (by simpa using hfirst e he)]
      exact ih hrest he

variable {exs : List ObjectExtent} {replies : List (ObjectExtent × Reply)}

namespace RangeExtents

variable {hv} (h : RangeExtents hv ino offset len truncSize exs)

include h

theorem fillable (hex : ex ∈ exs) : Fillable ∅ ex.bufferExtents := by
  obtain ⟨o, -, rfl⟩ := (h.mem ex).mp hex
  refine ⟨?_, by simp, pairwise_bufferExtents hv ino truncSize o⟩
  intro b hb
  obtain ⟨f, hf, -, rfl⟩ := mem_rangeExtent hv ino truncSize hb
  have hblk := (shape hv).mem_blocks hf
  have hunit : (shape hv).unit < 2 ^ 32 := layout.stripeUnit_lt
  omega

theorem disjoint : exs.Pairwise
    (fun e f => ∀ i ∈ span e.bufferExtents, i ∉ span f.bufferExtents) := by
  refine h.pair.imp_of_mem ?_
  intro e f he hf hne i hi hi'
  obtain ⟨o, -, rfl⟩ := (h.mem e).mp he
  obtain ⟨o', -, rfl⟩ := (h.mem f).mp hf
  exact hne ((objectAt_of_mem_span hv hi).symm.trans (objectAt_of_mem_span hv hi'))

theorem span_eq : {i | ∃ ex ∈ exs, i ∈ span ex.bufferExtents} = Set.Iio len := by
  ext i
  constructor
  · rintro ⟨ex, hex, hi⟩
    obtain ⟨o, -, rfl⟩ := (h.mem ex).mp hex
    exact lt_of_mem_span hv hi
  · exact fun hi => ⟨_, h.mem_objectAt hi, exists_bufferExtent hv ino truncSize hi⟩

end RangeExtents

theorem RepliesTo.answers (hexs : RangeExtents hv ino offset len truncSize exs)
    (h : RepliesTo exs replies) : Answers (fileByte layout offset replies) ∅ replies ∧
      {i | ∃ e ∈ replies, i ∈ span e.1.bufferExtents} = Set.Iio len := by
  have hasked := hexs.perm h.extents
  have hpair := pairwise_map.mp hasked.pair
  have hin : ∀ e ∈ replies, e.1 ∈ replies.map Prod.fst := fun e he => mem_map_of_mem he
  refine ⟨⟨fun e he => hasked.fillable (hin e he), h.fits, ?_, ?_,
    pairwise_map.mp hasked.disjoint⟩, ?_⟩
  · intro e he
    obtain ⟨o, ho, heq⟩ := (hasked.mem _).mp (hin e he)
    have hin := (rangeExtent_inside hv ino truncSize ho).2
    have hos := layout.objectSize_lt
    rw [heq]
    omega
  · intro e he
    obtain ⟨o, -, heq⟩ := (hasked.mem _).mp (hin e he)
    have hfile : ∀ i ∈ span e.1.bufferExtents,
        e.2.byte e.1 (layout.offsetAt (offset + i)) = fileByte layout offset replies i := by
      intro i hi
      rw [heq] at hi
      have ho : layout.objectAt (offset + i) = e.1.objectno := by
        rw [objectAt_of_mem_span hv hi, heq]
        rfl
      simp only [fileByte, ho, find?_objectno hpair he]
    refine Along.congr hfile ?_
    rw [heq]
    exact along_rangeExtent hv (e.2.byte _) ino offset len truncSize o
  · rw [← hasked.span_eq]
    simp

theorem readResult_spec (hlen : 0 < len) (hrange : offset + len < 2 ^ 64)
    (hexs : RangeExtents hv ino offset len truncSize exs) (h : RepliesTo exs replies)
    (zeroTail : Bool) : readResult replies zeroTail = .ok (padded (fileByte layout offset replies) 0
      (resultEnd (fileByte layout offset replies) zeroTail len)) := by
  obtain ⟨hanswers, hset⟩ := h.answers hv hexs
  obtain ⟨r, hrun, hgot⟩ := addReplies_spec gathered_empty hanswers
  rw [hset, Set.empty_union] at hgot
  simp only [readResult, hrun, ok_bind,
    assembleResult_spec hgot hlen (by omega) zeroTail, pure_eq_ok]

theorem filled_add_of_single (ho : ∀ i < len, layout.objectAt (offset + i) = o)
    (hi : i ≤ len) : (shape hv).filled o (offset + i) = (shape hv).filled o offset + i := by
  induction i with
  | zero => rfl
  | succ i ih =>
    have hone := (shape hv).filled_add o (p := offset + i) (n := 1)
      (Nat.mod_lt _ (shape hv).unit_pos)
    rw [shape_object hv, if_pos (ho i (by omega))] at hone
    rw [← Nat.add_assoc, hone, ih (by omega)]
    omega

theorem readResult_single (hlen : 0 < len) (hrange : offset + len < 2 ^ 64)
    (hexs : RangeExtents hv ino offset len truncSize [ex]) (hbl : bl.length ≤ ex.length) :
    readResult [(ex, .dense bl)] false = .ok bl := by
  obtain ⟨o, ho, hex⟩ := (hexs.mem ex).mp mem_cons_self
  have hobj : ∀ i < len, layout.objectAt (offset + i) = o := by
    intro i hi
    have hin := hexs.mem_objectAt hi
    rw [mem_singleton, hex] at hin
    exact congrArg ObjectExtent.objectno hin
  have hexo : ex.objectno = o := by rw [hex]; rfl
  have hoff : ex.offset = (shape hv).filled o offset := by rw [hex]; rfl
  have hexlen : ex.length = len := by
    rw [hex]
    simp only [rangeExtent, extentOf]
    rw [filled_add_of_single hv hobj le_rfl]
    omega
  have hbyte : ∀ i < len, bl[i]? = fileByte layout offset [(ex, .dense bl)] (0 + i) := by
    intro i hi
    have hfill := (shape hv).offset_eq_filled (offset + i)
    rw [shape_offset, shape_object, hobj i hi, filled_add_of_single hv hobj hi.le] at hfill
    simp only [Nat.zero_add, fileByte, hobj i hi, hexo, decide_true, find?_cons_of_pos,
      Reply.byte, hfill, hoff, Nat.add_sub_cancel_left]
  have hreplies : RepliesTo [ex] [(ex, .dense bl)] := ⟨.refl _, by simpa [Reply.Fits] using hbl⟩
  rw [readResult_spec hv hlen hrange hexs hreplies]
  have hpiece := dataEnd_piece (by omega) hbyte
  rw [Nat.zero_add] at hpiece
  exact congrArg Except.ok hpiece

/-- The ranges of `blMap` reach every byte of the extent. -/
def CoversExtent (blMap : SortedMap ℕ ℕ) (ex : ObjectExtent) : Prop :=
  ∀ x, ex.offset ≤ x → x < ex.offset + ex.length → ∃ e ∈ blMap.entries, e.1 ≤ x ∧ x < e.1 + e.2

variable {s : List (ℕ × ℕ)} {a : ℕ}

theorem mapByte_of_cover (hin : ∀ e ∈ s, e.2 = 0 ∨ (a ≤ e.1 ∧ e.1 + e.2 ≤ b))
    (hapart : s.Pairwise (fun e f => e.2 = 0 ∨ f.2 = 0 ∨ e.1 + e.2 ≤ f.1))
    (hcover : ∀ x, a ≤ x → x < b → ∃ e ∈ s, e.1 ≤ x ∧ x < e.1 + e.2) (hx : a ≤ x) (hxb : x < b) :
    mapByte s bl x = bl[x - a]? := by
  induction s generalizing a bl with
  | nil =>
    obtain ⟨e, he, -⟩ := hcover x hx hxb
    simp at he
  | cons e s ih =>
    obtain ⟨hfirst, hrest⟩ := pairwise_cons.mp hapart
    have hine := hin e mem_cons_self
    rw [mapByte]
    by_cases h0 : e.2 = 0
    · rw [if_neg (by omega), h0, drop_zero]
      refine ih (fun f hf => hin f (mem_cons_of_mem _ hf)) hrest ?_ hx
      intro y h1 h2
      obtain ⟨f, hf, h3, h4⟩ := hcover y h1 h2
      rcases mem_cons.mp hf with rfl | hf
      · omega
      · exact ⟨f, hf, h3, h4⟩
    · have hstart : e.1 = a := by
        obtain ⟨f, hf, h3, h4⟩ := hcover a le_rfl (by omega)
        rcases mem_cons.mp hf with rfl | hf
        · omega
        · have := hfirst f hf
          omega
      split_ifs with hhere
      · rw [hstart]
      · rw [ih (a := a + e.2) ?_ hrest ?_ (by omega), getElem?_drop]
        · congr 1
          omega
        · intro f hf
          have h1 := hfirst f hf
          have h2 := hin f (mem_cons_of_mem _ hf)
          omega
        · intro y h1 h2
          obtain ⟨f, hf, h3, h4⟩ := hcover y (by omega) h2
          rcases mem_cons.mp hf with rfl | hf
          · omega
          · exact ⟨f, hf, h3, h4⟩

theorem sum_le_of_apart (hab : a ≤ b) (hin : ∀ e ∈ s, e.2 = 0 ∨ (a ≤ e.1 ∧ e.1 + e.2 ≤ b))
    (hapart : s.Pairwise (fun e f => e.2 = 0 ∨ f.2 = 0 ∨ e.1 + e.2 ≤ f.1)) :
    a + (s.map Prod.snd).sum ≤ b := by
  induction s generalizing a with
  | nil => exact hab
  | cons e s ih =>
    obtain ⟨hfirst, hrest⟩ := pairwise_cons.mp hapart
    have hine := hin e mem_cons_self
    have hnext := ih (a := a + e.2) (by omega) (fun f hf => by
      have h1 := hfirst f hf
      have h2 := hin f (mem_cons_of_mem _ hf)
      omega) hrest
    simp only [map_cons, sum_cons]
    omega

theorem Reply.Fits.dense (h : (Reply.sparse bl blMap).Fits ex) : (Reply.dense bl).Fits ex := by
  obtain ⟨hin, hapart, hlen⟩ := h
  have hsum := sum_le_of_apart (Nat.le_add_right ex.offset ex.length)
    (fun e he => .inr (hin e he)) hapart
  have hle : bl.length ≤ ex.length := by omega
  exact hle

theorem fileByte_swap {pre post} {reply'}
    (h : layout.objectAt (offset + i) = ex.objectno →
      reply.byte ex (layout.offsetAt (offset + i)) =
        reply'.byte ex (layout.offsetAt (offset + i))) :
    fileByte layout offset (pre ++ (ex, reply) :: post) i =
      fileByte layout offset (pre ++ (ex, reply') :: post) i := by
  simp only [fileByte, find?_append]
  cases pre.find? (fun e => e.1.objectno = layout.objectAt (offset + i)) with
  | some e => rfl
  | none =>
    by_cases ho : ex.objectno = layout.objectAt (offset + i)
    · simpa [ho] using h ho.symm
    · simp [ho]

end Range

/-- Striped reads are reassembled exactly, from dense and sparse replies in any order. -/
theorem readResult_exact (layout : FileLayout) (hv : cephFileLayoutIsValid layout = true)
    (ino offset len truncSize : ℕ) (hlen : 0 < len) (hrange : offset + len < 2 ^ 64) :
    ∃ exs, fileToExtents ino layout offset len truncSize = .ok exs ∧
      (∀ replies, RepliesTo exs replies →
        readResult replies true = .ok ((List.range len).map
          (fun i => (fileByte layout offset replies i).getD 0)) ∧
        readResult replies false = .ok (((List.range len).map
          (fun i => (fileByte layout offset replies i).getD 0)).take
            (dataEnd (fileByte layout offset replies) len))) ∧
      (∀ pre post ex bl blMap zeroTail, RepliesTo exs (pre ++ (ex, .sparse bl blMap) :: post) →
        CoversExtent blMap ex →
        readResult (pre ++ (ex, .sparse bl blMap) :: post) zeroTail =
          readResult (pre ++ (ex, .dense bl) :: post) zeroTail) ∧
      (∀ ex bl, exs = [ex] → bl.length ≤ ex.length →
        ∃ out, sgReadFinish exs [bl] = .ok (out, out.length) ∧
          readResult (exs.zip [.dense bl]) false = .ok out) := by
  obtain ⟨exs, hrun, hexs⟩ := fileToExtents_spec hv ino truncSize hlen hrange
  have hspec := fun replies (h : RepliesTo exs replies) zeroTail =>
    readResult_spec hv hlen hrange hexs h zeroTail
  refine ⟨exs, hrun, ?_, ?_, ?_⟩
  · intro replies h
    refine ⟨?_, ?_⟩
    · rw [hspec replies h true, padded_zero]
      rfl
    · rw [hspec replies h false, padded_zero, ← map_take, take_range,
        min_eq_left (dataEnd_le len)]
      rfl
  · intro pre post ex bl blMap zeroTail h hcover
    have hfits := h.fits (ex, .sparse bl blMap) (by simp)
    have h' : RepliesTo exs (pre ++ (ex, .dense bl) :: post) := by
      refine ⟨by simpa using h.extents, ?_⟩
      intro e he
      rcases mem_append.mp he with he | he
      · exact h.fits e (by simp [he])
      · rcases mem_cons.mp he with rfl | he
        · exact hfits.dense
        · exact h.fits e (by simp [he])
    obtain ⟨o, ho, hex⟩ := (hexs.mem ex).mp (h.extents.mem_iff.mp (by simp))
    have hbyte : ∀ i < len, fileByte layout offset (pre ++ (ex, .sparse bl blMap) :: post) i =
        fileByte layout offset (pre ++ (ex, .dense bl) :: post) i := by
      intro i hi
      apply fileByte_swap
      intro hobj
      have hin := offsetAt_mem_rangeExtent hv ino offset truncSize hi
      have hobj' : layout.objectAt (offset + i) = o := by
        rw [hobj, hex]
        rfl
      rw [hobj', ← hex] at hin
      exact mapByte_of_cover (fun e he => .inr (hfits.1 e he)) hfits.2.1 hcover hin.1 hin.2
    have hend : resultEnd (fileByte layout offset (pre ++ (ex, .sparse bl blMap) :: post)) zeroTail
        len = resultEnd (fileByte layout offset (pre ++ (ex, .dense bl) :: post)) zeroTail len := by
      rw [resultEnd, resultEnd, dataEnd_congr hbyte]
    rw [hspec _ h, hspec _ h', hend, padded_congr]
    intro i hi
    apply hbyte
    exact hi.trans_le (resultEnd_le zeroTail len)
  · rintro ex bl rfl hbl
    refine ⟨bl, ?_, ?_⟩
    · simp [sgReadFinish]
    · exact readResult_single hv hlen hrange hexs hbl

/-- Two objects, the second with a short reply that arrives first. -/
theorem readResult_exact_twoStripes :
    let layout : FileLayout :=
      { stripeUnit := 65536, stripeCount := 2, objectSize := 131072, pgPool := 0 }
    let ex0 : ObjectExtent := ⟨"1.00000000", 0, 65535, 1, 0, 0, [(0, 1)]⟩
    let ex1 : ObjectExtent := ⟨"1.00000001", 1, 0, 2, 0, 0, [(1, 2)]⟩
    fileToExtents 1 layout 65535 3 0 = .ok [ex0, ex1] ∧
      readResult [(ex1, .dense [7]), (ex0, .dense [5])] true = .ok [5, 7, 0] ∧
      readResult [(ex1, .dense [7]), (ex0, .dense [5])] false = .ok [5, 7] := by
  intro layout ex0 ex1
  have hexs : fileToExtents 1 layout 65535 3 0 = .ok [ex0, ex1] := by decide
  obtain ⟨exs, hrun, hread, -⟩ :=
    readResult_exact layout (by decide) 1 65535 3 0 (by decide) (by decide)
  cases hrun.symm.trans hexs
  have hreplies : RepliesTo [ex0, ex1] [(ex1, .dense [7]), (ex0, .dense [5])] := by
    refine ⟨List.Perm.swap ex0 ex1 [], ?_⟩
    simp [Reply.Fits, ex0, ex1]
  obtain ⟨htrue, hfalse⟩ := hread _ hreplies
  exact ⟨hexs, htrue.trans (by decide), hfalse.trans (by decide)⟩

end CephDokan.Striper
