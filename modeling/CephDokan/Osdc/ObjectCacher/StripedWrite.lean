import CephDokan.Osdc.ObjectCacher.WriteExtent
import CephDokan.Osdc.StripedRead

/-!
# Striped writes through the cache

`writex` over the extents that the striper gives for a range of the file. Every byte ends
up where it belongs exactly when no object takes more than one piece of the buffer; with a
second piece the call throws.
-/

namespace CephDokan.ObjectCacher

open Striper List FileLayout

section Striped

variable {layout : FileLayout} (hv : cephFileLayoutIsValid layout = true) (ino truncSize : ℕ)
  {offset len : ℕ}

include hv in
/-- Pieces of an object that takes more than one are shorter than half of the 32-bit range. -/
theorem rangeExtent_several {o : ℕ}
    (h : 1 < (rangeExtent hv ino offset len truncSize o).bufferExtents.length) {b}
    (hb : b ∈ (rangeExtent hv ino offset len truncSize o).bufferExtents) : b.2 < 2 ^ 31 := by
  obtain ⟨e, he, -, rfl⟩ := mem_rangeExtent hv ino truncSize hb
  have hblk := (shape hv).mem_blocks he
  have hdepth : 2 ≤ (shape hv).depth :=
    (shape hv).two_le_depth (by simpa [rangeExtent, extentOf] using h)
  have hcap := shape_capacity hv
  have hmul := Nat.mul_le_mul_right (shape hv).unit hdepth
  have hlt := layout.objectSize_lt
  unfold Striping.Shape.capacity at hcap
  omega

theorem osdWrite_ok {data} {exs} (hdata : data.length < 2 ^ 32)
    (hexs : RangeExtents hv ino offset data.length truncSize exs) (snapc : SnapContext)
    (dontneed : Bool) : OSDWrite.Ok ⟨exs, snapc, data, dontneed⟩ := by
  have hmem := hexs.mem
  refine ⟨hexs.oids, ?_, ?_, hdata, ?_, ?_, ?_⟩
  · intro ex hex
    obtain ⟨o, ho, rfl⟩ := (hmem ex).mp hex
    exact (rangeExtent_inside hv ino truncSize ho).1
  · intro ex hex
    obtain ⟨o, ho, rfl⟩ := (hmem ex).mp hex
    have := (rangeExtent_inside hv ino truncSize ho).2
    have := layout.objectSize_lt
    omega
  · intro ex hex
    obtain ⟨o, -, rfl⟩ := (hmem ex).mp hex
    exact rangeExtent_bufferExtents_sum hv ino truncSize o
  · intro ex hex b hb
    obtain ⟨o, -, rfl⟩ := (hmem ex).mp hex
    obtain ⟨e, he, -, rfl⟩ := mem_rangeExtent hv ino truncSize hb
    have := (shape hv).mem_blocks he
    simp only
    omega
  · intro ex hex hlen b hb
    obtain ⟨o, -, rfl⟩ := (hmem ex).mp hex
    exact rangeExtent_several hv ino truncSize hlen hb

/-- In an extent with one piece the bytes of the object follow those of the buffer. -/
theorem offsetAt_of_single {i first : ℕ} (hi : i < len)
    (hfrag :
      (rangeExtent hv ino offset len truncSize (layout.objectAt (offset + i))).bufferExtents =
      [(first, (rangeExtent hv ino offset len truncSize (layout.objectAt (offset + i))).length)]) :
    first + (layout.offsetAt (offset + i) -
      (rangeExtent hv ino offset len truncSize (layout.objectAt (offset + i))).offset) = i := by
  obtain ⟨b, hb, h1, h2⟩ : ∃ b ∈ (rangeExtent hv ino offset len truncSize
      (layout.objectAt (offset + i))).bufferExtents, b.1 ≤ i ∧ i < b.1 + b.2 :=
    exists_bufferExtent hv ino truncSize hi
  have hb' := hb
  rw [hfrag] at hb'
  obtain rfl := mem_singleton.mp hb'
  obtain ⟨e, he, heo, hbe⟩ := mem_rangeExtent hv ino truncSize hb
  obtain ⟨hfirst, hlength⟩ := Prod.mk.inj hbe
  have hblk := (shape hv).mem_blocks he
  -- nothing of the object lies between the start of the range and the piece
  have hfill := (shape hv).filled_add (layout.objectAt (offset + i)) hblk.2.1
  have hmono := (shape hv).filled_mono (layout.objectAt (offset + i)) hblk.2.2.2
  have hmono' := (shape hv).filled_mono (layout.objectAt (offset + i)) hblk.2.2.1
  rw [shape_object hv, if_pos heo] at hfill
  have hoff := (shape hv).offset_eq_filled e.1
  rw [shape_offset hv, shape_object hv, heo] at hoff
  have hadd : (shape hv).offset (e.1 + (offset + i - e.1)) =
      (shape hv).offset e.1 + (offset + i - e.1) :=
    (shape hv).offset_add (by simp only at h1 h2; omega)
  have hpos : e.1 + (offset + i - e.1) = offset + i := by
    omega
  rw [hpos, shape_offset hv, shape_offset hv] at hadd
  have hstart : (rangeExtent hv ino offset len truncSize (layout.objectAt (offset + i))).offset =
      (shape hv).filled (layout.objectAt (offset + i)) offset := rfl
  have hextent : (rangeExtent hv ino offset len truncSize (layout.objectAt (offset + i))).length =
      (shape hv).filled (layout.objectAt (offset + i)) (offset + len) -
        (shape hv).filled (layout.objectAt (offset + i)) offset := rfl
  omega

end Striped

namespace Cacher

variable {c c' : Cacher} {wr : OSDWrite} {ex : ObjectExtent}

/-- Whether byte `b` of an object belongs to an extent. -/
def InExtent (ex : ObjectExtent) (key : Soid) (b : ℕ) : Prop :=
  key = writeKey ex ∧ ex.offset ≤ b ∧ b < ex.offset + ex.length

/-- The bytes of the extents `exs` are dirty with the data of the write, all others have the
value and state they had. -/
structure Stores (c : Cacher) (wr : OSDWrite) (exs : List ObjectExtent) (c' : Cacher) : Prop where
  written : ∀ ex ∈ exs, ∀ first, ex.bufferExtents = [(first, ex.length)] → ∀ b,
    ex.offset ≤ b → b < ex.offset + ex.length →
      (c'.cell (writeKey ex) b).map Cell.forget =
        some (Cell.dirty wr.bl[first + (b - ex.offset)]? wr.snapc).forget
  kept : ∀ key b, (∀ ex ∈ exs, ¬InExtent ex key b) →
    (c'.cell key b).map Cell.forget = (c.cell key b).map Cell.forget

theorem writeKey_ne {ex ex'} (h : ex.oid ≠ ex'.oid) : writeKey ex ≠ writeKey ex' := by
  intro heq
  exact h (congrArg Soid.name heq)

section

variable (oset : ObjectSet) (now : ℕ) (hc : c.Ok) (hwr : wr.Ok) (hmem : ex ∈ wr.extents)

include oset now hc hwr hmem

theorem writeObject_stores {first : ℕ} (hfrag : ex.bufferExtents = [(first, ex.length)]) :
    ∃ c', c.writeObject oset wr now ex = .ok c' ∧ c'.Ok ∧ Stores c wr [ex] c' := by
  obtain ⟨rest, f, l, l', hrun, hok, hf, hshape, hfill, hmerge, hcells⟩ :=
    writeObject_spec oset now hc hwr hmem hfrag
  have hforget : ∀ b, ((c.put (writeKey ex) f).cell (writeKey ex) b).map Cell.forget =
      (cells l b).map Cell.forget := by
    intro b
    rw [cell_put_self, hf.entries]
    exact hmerge.cells_forget hshape hfill (by decide) (by decide) b
  refine ⟨_, hrun, hok, ?_, ?_⟩
  · intro ex' hex' first' hfrag' b h1 h2
    obtain rfl := mem_singleton.mp hex'
    rw [hfrag] at hfrag'
    obtain rfl : first = first' := by simpa using hfrag'
    rw [hforget, hcells, if_pos ⟨h1, h2⟩]
    rfl
  · intro key b hout
    have hout := hout ex mem_cons_self
    by_cases hkey : key = writeKey ex
    · subst hkey
      rw [hforget, hcells, if_neg (fun hin => hout ⟨rfl, hin⟩)]
    · rw [cell_put_of_ne c f hkey]

theorem writeObject_several (hfrags : 1 < ex.bufferExtents.length) :
    c.writeObject oset wr now ex = .error .endOfBuffer := by
  have hname := writeKey_name ex
  have hfind := getObject_find? c (writeKey ex) ex.oid ex.objectno oset ex.truncateSize
  obtain ⟨pre, post, he⟩ := SortedMap.exists_split_of_find? hfind
  have hf := (hc.getObject ex.objectno oset ex.truncateSize hname).focus he
  have hfail := Focus.writeExtent_several hf hwr hmem
    (hc.objectFor_oid ex.objectno oset ex.truncateSize hname).symm hfrags now
  rw [writeObject, atObject, focus_eq hfind, Fallible.ok_bind, hfail]
  rfl

end

variable {exs : List ObjectExtent}

theorem writexLoop_single {oset} {now : ℕ} (hwr : wr.Ok) (hc : c.Ok)
    (hsub : ∀ ex ∈ exs, ex ∈ wr.extents) (hrun : c.writexLoop oset wr now exs = .ok c') :
    ∀ ex ∈ exs, ∃ first, ex.bufferExtents = [(first, ex.length)] := by
  induction exs generalizing c with
  | nil => simp
  | cons ex exs ih =>
    obtain ⟨c1, hstep, hrun⟩ := Fallible.bind_eq_ok.mp hrun
    have hmem := hsub ex mem_cons_self
    rcases hwr.fragments hmem with ⟨first, hfrag⟩ | hfrags
    · obtain ⟨c2, hstep2, hok, -⟩ := writeObject_stores oset now hc hwr hmem hfrag
      cases hstep.symm.trans hstep2
      intro e he
      rcases mem_cons.mp he with rfl | he
      · exact ⟨first, hfrag⟩
      · exact ih hok (fun e he => hsub e (mem_cons_of_mem _ he)) hrun e he
    · rw [writeObject_several oset now hc hwr hmem hfrags] at hstep
      cases hstep

theorem writexLoop_stores (oset : ObjectSet) (now : ℕ) (hwr : wr.Ok) (hc : c.Ok)
    (hsub : ∀ ex ∈ exs, ex ∈ wr.extents) (hdistinct : exs.Pairwise fun e e' => e.oid ≠ e'.oid)
    (hsingle : ∀ ex ∈ exs, ∃ first, ex.bufferExtents = [(first, ex.length)]) :
    ∃ c', c.writexLoop oset wr now exs = .ok c' ∧ Stores c wr exs c' := by
  induction exs generalizing c with
  | nil => exact ⟨c, rfl, by simp, fun _ _ _ => rfl⟩
  | cons ex exs ih =>
    obtain ⟨hfirst, hrest⟩ := pairwise_cons.mp hdistinct
    obtain ⟨first, hfrag⟩ := hsingle ex mem_cons_self
    obtain ⟨c1, hstep, hok1, hone⟩ := writeObject_stores oset now hc hwr
      (hsub ex mem_cons_self) hfrag
    obtain ⟨c2, hrun, hothers⟩ := ih hok1 (fun e he => hsub e (mem_cons_of_mem _ he))
      hrest (fun e he => hsingle e (mem_cons_of_mem _ he))
    refine ⟨c2, ?_, ?_, ?_⟩
    · rw [writexLoop, hstep]
      exact hrun
    · intro e he first' hfrag' b h1 h2
      rcases mem_cons.mp he with rfl | he
      · -- the later extents are in other objects
        rw [hothers.kept _ b (fun e' he' hin => writeKey_ne (hfirst e' he') hin.1)]
        exact hone.written e mem_cons_self first' hfrag' b h1 h2
      · exact hothers.written e he first' hfrag' b h1 h2
    · intro key b hout
      rw [hothers.kept key b (fun e he => hout e (mem_cons_of_mem _ he))]
      apply hone.kept
      intro e he
      obtain rfl := mem_singleton.mp he
      exact hout e mem_cons_self

/-- Every byte of `data` is cached dirty where the byte of the file at `offset` and after it
lies, and outside the extents every byte has the value and state it had. -/
structure StoresFile (layout : FileLayout) (ino offset : ℕ) (data : Bytes)
    (exs : List ObjectExtent) (c c' : Cacher) : Prop where
  written : ∀ i < data.length, ∃ snapc,
    c'.cell (soid layout.pgPool (objectFormat ino (layout.objectAt (offset + i))) cephNosnap)
      (layout.offsetAt (offset + i)) = some (.dirty data[i]? snapc)
  kept : ∀ key b, (∀ ex ∈ exs, ¬InExtent ex key b) →
    (c'.cell key b).map Cell.forget = (c.cell key b).map Cell.forget

theorem dirty_of_forget {o} {v} {snapc} (h : o.map Cell.forget = some (Cell.dirty v snapc).forget) :
    ∃ snapc, o = some (.dirty v snapc) := by
  obtain ⟨x, rfl, hx⟩ := Option.map_eq_some_iff.mp h
  cases x with
  | dirty w s =>
    simp only [Cell.forget, Cell.dirty.injEq, and_true] at hx
    exact ⟨s, by rw [hx]⟩
  | _ => simp [Cell.forget] at hx

/-- `writex` of a striped range stores the data faithfully exactly when no object takes more
than one piece of the buffer. -/
theorem writex_faithful_iff (layout : FileLayout) (hv : cephFileLayoutIsValid layout = true)
    (ino offset truncSize : ℕ) (data : Bytes) (hpos : 0 < data.length)
    (hdata : data.length < 2 ^ 32) (hoff : offset < 2 ^ 63) (c : Cacher) (hc : c.Ok)
    (oset : ObjectSet) (snapc : SnapContext) (dontneed : Bool) (now : ℕ) :
    ∃ exs, fileToExtents ino layout offset data.length truncSize = .ok exs ∧
      ((∃ c', c.writex oset ⟨exs, snapc, data, dontneed⟩ now = .ok c' ∧
          StoresFile layout ino offset data exs c c') ↔
        ∀ ex ∈ exs, ex.bufferExtents.length = 1) := by
  obtain ⟨exs, hrun, hexs⟩ := fileToExtents_spec hv ino truncSize hpos
    (by omega : offset + data.length < 2 ^ 64)
  have hwr := osdWrite_ok hv ino truncSize hdata hexs snapc dontneed
  refine ⟨exs, hrun, ?_, ?_⟩
  · rintro ⟨c', hwrite, -⟩ ex hex
    obtain ⟨first, hfrag⟩ := writexLoop_single hwr hc (fun _ he => he) hwrite ex hex
    rw [hfrag]
    rfl
  · intro hone
    have hsingle : ∀ ex ∈ exs, ∃ first, ex.bufferExtents = [(first, ex.length)] := by
      intro ex hex
      rcases hwr.fragments hex with hfrag | hfrags
      · exact hfrag
      · have := hone ex hex
        omega
    obtain ⟨c', hwrite, hstores⟩ :=
      writexLoop_stores oset now hwr hc (fun _ he => he) hwr.distinct hsingle
    refine ⟨c', hwrite, ?_, hstores.kept⟩
    intro i hi
    have hex := hexs.mem_objectAt hi
    obtain ⟨first, hfrag⟩ := hsingle _ hex
    have hin := offsetAt_mem_rangeExtent hv ino offset truncSize hi
    have hval := hstores.written _ hex first hfrag _ hin.1 hin.2
    rw [offsetAt_of_single hv ino truncSize hi hfrag] at hval
    exact dirty_of_forget hval

/-- Two bytes over the border of two objects, into an empty cache. -/
theorem writex_faithful_iff_twoObjects :
    let layout : FileLayout :=
      { stripeUnit := 65536, stripeCount := 2, objectSize := 131072, pgPool := 0 }
    let c : Cacher := { maxSize := 1048576, maxObjects := 16 }
    let exs : List ObjectExtent := [⟨"1.00000000", 0, 65535, 1, 0, 0, [(0, 1)]⟩,
      ⟨"1.00000001", 1, 0, 1, 0, 0, [(1, 1)]⟩]
    fileToExtents 1 layout 65535 2 0 = .ok exs ∧
      ∃ c', c.writex ⟨0, 0, 0, false⟩ ⟨exs, ⟨1, [1]⟩, [5, 7], false⟩ 0 = .ok c' ∧
        StoresFile layout 1 65535 [5, 7] exs c c' := by
  intro layout c exs
  have hexs : fileToExtents 1 layout 65535 2 0 = .ok exs := by decide
  obtain ⟨exs', hrun, hiff⟩ := writex_faithful_iff layout (by decide) 1 65535 0 [5, 7] (by decide)
    (by decide) (by decide) c (ok_new rfl rfl) ⟨0, 0, 0, false⟩ ⟨1, [1]⟩ false 0
  cases hrun.symm.trans hexs
  exact ⟨hexs, hiff.mpr (by decide)⟩

/-- Two bytes over the border of two stripe units of one object: the copy of the second
fragment runs off the end of the buffer. -/
theorem writex_twoFragments_throws :
    let layout : FileLayout :=
      { stripeUnit := 65536, stripeCount := 1, objectSize := 131072, pgPool := 0 }
    let c : Cacher := { maxSize := 1048576, maxObjects := 16 }
    let exs : List ObjectExtent := [⟨"1.00000000", 0, 65535, 2, 0, 0, [(0, 1), (1, 1)]⟩]
    cephFileLayoutIsValid layout = true ∧ c.Ok ∧ fileToExtents 1 layout 65535 2 0 = .ok exs ∧
      c.writex ⟨0, 0, 0, false⟩ ⟨exs, ⟨1, [1]⟩, [5, 7], false⟩ 0 = .error .endOfBuffer := by
  intro layout c exs
  have hc : c.Ok := ok_new rfl rfl
  have hwr : OSDWrite.Ok ⟨exs, ⟨1, [1]⟩, [5, 7], false⟩ := by
    constructor <;> decide
  refine ⟨by decide, hc, by decide, ?_⟩
  rw [writex, writexLoop, writeObject_several _ 0 hc hwr mem_cons_self (by decide)]
  rfl

end Cacher

end CephDokan.ObjectCacher
