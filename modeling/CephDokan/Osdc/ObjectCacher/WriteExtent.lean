import CephDokan.Osdc.ObjectCacher.Invariant
import CephDokan.Osdc.ObjectCacher.MapWrite

/-!
# Writing one extent

The body of the loop of `writex`. An extent with one fragment of the buffer is written as
it should be; with a second fragment the offset into the buffer head comes out negative
and the copy of what is left of it fails.
-/

namespace CephDokan.ObjectCacher

open Fallible List

/-- A write as the striper prepares it: one extent for each object, in 64-bit offsets,
with fragments of the buffer that make up the extent. -/
structure OSDWrite.Ok (wr : OSDWrite) : Prop where
  distinct : wr.extents.Pairwise fun e e' => e.oid ≠ e'.oid
  pos : ∀ ex ∈ wr.extents, 0 < ex.length
  room : ∀ ex ∈ wr.extents, ex.offset + ex.length < 2 ^ 63
  bl : wr.bl.length < 2 ^ 32
  total : ∀ ex ∈ wr.extents, (ex.bufferExtents.map Prod.snd).sum = ex.length
  inside : ∀ ex ∈ wr.extents, ∀ p ∈ ex.bufferExtents, 0 < p.2 ∧ p.1 + p.2 ≤ wr.bl.length
  several : ∀ ex ∈ wr.extents, 1 < ex.bufferExtents.length → ∀ p ∈ ex.bufferExtents, p.2 < 2 ^ 31

namespace Focus

variable {rest : Multiset Item} {f f' : Focus} {k off first len : ℕ} {bh : BufferHead}
  {data : Bytes} {wr : OSDWrite} {ex : ObjectExtent}

theorem copyFragments_cons (frags : List (ℕ × ℕ)) (hstart : bh.start = off) (hoff : off < 2 ^ 63)
    (hlen : len ≤ bh.length) (hbh : bh.length < 2 ^ 63) (hdata : data.length < 2 ^ 32)
    (hin : first + len ≤ data.length) : copyFragments data ((first, len) :: frags) bh off =
      copyFragments data frags { bh with bl := (data.drop first).take len } (off + len) := by
  have hbhoff : sub64 bh.start off = 0 := by
    rw [hstart, sub64_of_le le_rfl (by omega), Nat.sub_self]
  have hroom : len ≤ sub64 bh.length 0 := by
    rw [sub64_of_le (Nat.zero_le _) (by omega)]
    exact hlen
  rw [copyFragments, hbhoff, assertThat_of hroom, ok_bind, u32_of_lt (by omega),
    u32_of_lt (by omega), Bytes.substrOf_of_le hin, ok_bind]
  rfl

/-- The second fragment asks for more of the buffer than the first has put there. -/
theorem copyFragments_several {first' len' : ℕ} {frags} (hstart : bh.start = off)
    (hoff : off + len < 2 ^ 63) (hlen : len ≤ bh.length) (hbh : bh.length < 2 ^ 63)
    (hdata : data.length < 2 ^ 32) (hin : first + len ≤ data.length) (hpos : 0 < len)
    (hsmall : len < 2 ^ 31) (hin' : first' + len' ≤ data.length) (hlen' : len' ≤ bh.length) :
    copyFragments data ((first, len) :: (first', len') :: frags) bh off = .error .endOfBuffer := by
  rw [copyFragments_cons _ hstart (by omega) hlen hbh hdata hin]
  have hbhoff : sub64 bh.start (off + len) = 2 ^ 64 - len := by
    unfold sub64 u64
    omega
  have hroom : len' ≤ sub64 bh.length (2 ^ 64 - len) := by
    unfold sub64 u64
    omega
  have hkeep : keepLeft ((data.drop first).take len) (2 ^ 64 - len) = .error .endOfBuffer := by
    have hu32 : u32 (2 ^ 64 - len) = 2 ^ 32 - len := by
      unfold u32
      omega
    have hbl : ((data.drop first).take len).length = len := by
      rw [length_take, length_drop]
      omega
    have hover : u32 (0 + (2 ^ 32 - len)) > len := by
      unfold u32
      omega
    rw [keepLeft, if_neg (by omega), hu32, Bytes.substrOf, hbl, if_pos hover]
  rw [copyFragments]
  rw [hbhoff, assertThat_of hroom, ok_bind, u32_of_lt (by omega), u32_of_lt (by omega),
    Bytes.substrOf_of_le hin', ok_bind, hkeep]
  rfl

theorem touchWritten_spec {pre post : List Entry} (hf : Accounts rest f)
    (h : f.ob.data.entries = pre ++ (k, bh) :: post) (dontneed : Bool) :
    ∃ f', f.touchWritten k dontneed = .ok f' ∧
      Becomes rest f (pre ++ (k, { bh with dontneed := dontneed }) :: post) f' := by
  cases dontneed with
  | false =>
    obtain ⟨f', hrun, hf'⟩ := touchBh_spec hf h
    exact ⟨f', hrun, hf'⟩
  | true =>
    refine ⟨_, ?_, assign_spec hf h rfl⟩
    rw [touchWritten, if_pos rfl, deref_eq h]
    rfl

section

variable (hf : f.Ok rest) (hwr : wr.Ok) (hmem : ex ∈ wr.extents) (hoid : ex.oid = f.ob.oid)

include hf hwr hmem hoid

/-- An extent with one fragment: its bytes are dirty with the data and the snapshot context
of the write, the others are as before, and then `try_merge_bh` joins heads at its ends. -/
theorem writeExtent_spec (hfrag : ex.bufferExtents = [(first, ex.length)]) (now : ℕ) :
    ∃ f' l l', f.writeExtent wr now ex = .ok f' ∧ Becomes rest f l' f' ∧ Shape l ∧
      (∀ e ∈ l, e.2.Filled) ∧
      Merges .dirty (fun b => b = ex.offset ∨ b = ex.offset + ex.length) l l' ∧
      ∀ b, cells l b = if ex.offset ≤ b ∧ b < ex.offset + ex.length then
        some (.dirty wr.bl[first + (b - ex.offset)]? wr.snapc) else cells f.ob.data.entries b := by
  have hin : first + ex.length ≤ wr.bl.length := by
    have := hwr.inside ex hmem (first, ex.length) (by simp [hfrag])
    exact this.2
  have hroom := hwr.room ex hmem
  have hpos := hwr.pos ex hmem
  have hdata := hwr.bl
  obtain ⟨f1, pre, fin, post, hrun1, hm⟩ :=
    mapWrite_spec hf.accounts hf.shape hf.filled hwr.distinct hmem hoid hpos
  have hstart : fin.start = ex.offset := hm.shape.mid_ok.start
  have hlen : fin.length = ex.length := by
    have := hm.reach
    omega
  obtain ⟨frag, hfragdef⟩ : ∃ frag, frag = (wr.bl.drop first).take ex.length := ⟨_, rfl⟩
  have hcopy : copyFragments wr.bl ex.bufferExtents { fin with snapc := wr.snapc } ex.offset =
      .ok { fin with snapc := wr.snapc, bl := frag } := by
    rw [hfrag, hfragdef]
    exact copyFragments_cons [] hstart (by omega) hlen.ge (by simp only; omega) hdata hin
  have hf2 : Becomes rest f1
      (pre ++ (ex.offset, { fin with snapc := wr.snapc, bl := frag }) :: post)
      (f1.assign ex.offset { fin with snapc := wr.snapc, bl := frag }) :=
    assign_spec hm.becomes.accounts hm.becomes.entries rfl
  obtain ⟨f3, hrun3, hf3⟩ := markDirty_spec hf2.accounts hf2.entries
  obtain ⟨f4, hrun4, hf4⟩ := touchWritten_spec hf3.accounts hf3.entries wr.dontneed
  obtain ⟨bh, hbh⟩ : ∃ bh : BufferHead, bh = { ({ fin with snapc := wr.snapc, bl := frag } :
      BufferHead).withState .dirty with dontneed := wr.dontneed, lastWrite := now } := ⟨_, rfl⟩
  have hf5 : Becomes rest f4 (pre ++ (ex.offset, bh) :: post) (f4.assign ex.offset bh) :=
    assign_spec hf4.accounts hf4.entries (by rw [hbh]; rfl)
  have hshape : Shape (pre ++ (ex.offset, bh) :: post) := by
    rw [hbh]
    exact hm.shape.same rfl rfl rfl
  have hstop : bh.stop = ex.offset + ex.length := by
    rw [hbh, ← hstart, ← hlen]
    rfl
  have hstate : bh.state = .dirty := by rw [hbh]; rfl
  obtain ⟨f6, l, hrun6, hf6, hmerge⟩ := tryMergeBh_spec hf5.accounts hf5.entries hshape
  rw [hstate, hstop] at hmerge
  refine ⟨f6, _, l, ?_, ((((hm.becomes.trans hf2).trans hf3).trans hf4).trans hf5).trans hf6,
    hshape, ?_, hmerge, ?_⟩
  · rw [writeExtent, hrun1, ok_bind]
    simp only
    rw [deref_eq hm.becomes.entries, ok_bind, hcopy, ok_bind, hrun3,
      ok_bind, hrun4, ok_bind, deref_eq hf4.entries, ok_bind, ← hrun6,
      hbh]
  · intro e he
    simp only [mem_append, mem_cons] at he
    rcases he with he | rfl | he
    · exact hm.filled e (by simp [he])
    · have hfl : frag.length = fin.length := by
        rw [hfragdef, length_take, length_drop]
        omega
      rw [hbh]
      exact hfl
    · exact hm.filled e (by simp [he])
  · intro b
    have hl : bh.length = ex.length := by rw [hbh, ← hlen]; rfl
    split_ifs with hb
    · rw [cells_mid hshape hb.1 (by omega)]
      have hget : frag[b - ex.offset]? = wr.bl[first + (b - ex.offset)]? := by
        rw [hfragdef, getElem?_take_of_lt (by omega), getElem?_drop]
      have hcell : bh.cell b = .dirty frag[b - fin.start]? wr.snapc := by rw [hbh]; rfl
      rw [hcell, hstart, hget]
    · rw [cells_skip ex.offset bh (by omega)]
      exact hm.outside b (by omega)

theorem writeExtent_several (hfrags : 1 < ex.bufferExtents.length) (now : ℕ) :
    f.writeExtent wr now ex = .error .endOfBuffer := by
  have hroom := hwr.room ex hmem
  have htotal := hwr.total ex hmem
  have hsmall := hwr.several ex hmem hfrags
  have hinside := hwr.inside ex hmem
  obtain ⟨f1, pre, fin, post, hrun, hm⟩ :=
    mapWrite_spec hf.accounts hf.shape hf.filled hwr.distinct hmem hoid (hwr.pos ex hmem)
  have hstart : fin.start = ex.offset := hm.shape.mid_ok.start
  have hlen : fin.length = ex.length := by
    have := hm.reach
    omega
  match hbx : ex.bufferExtents, hfrags with
  | (a, la) :: (b, lb) :: frags, _ =>
    have ha := hinside (a, la) (by simp [hbx])
    have hb := hinside (b, lb) (by simp [hbx])
    have hsa := hsmall (a, la) (by simp [hbx])
    simp only [hbx, map_cons, sum_cons] at htotal
    have hfail : copyFragments wr.bl ((a, la) :: (b, lb) :: frags) { fin with snapc := wr.snapc }
        ex.offset = .error .endOfBuffer := by
      refine copyFragments_several hstart ?_ ?_ ?_ hwr.bl ha.2 ha.1 hsa hb.2 ?_
      · omega
      · exact (by omega : la ≤ fin.length)
      · exact (by omega : fin.length < 2 ^ 63)
      · exact (by omega : lb ≤ fin.length)
    rw [writeExtent, hrun, ok_bind]
    simp only
    rw [deref_eq hm.becomes.entries, ok_bind, hbx, hfail]
    rfl

end

end Focus

theorem OSDWrite.Ok.fragments {wr : OSDWrite} {ex} (hwr : wr.Ok) (hmem : ex ∈ wr.extents) :
    (∃ first, ex.bufferExtents = [(first, ex.length)]) ∨ 1 < ex.bufferExtents.length := by
  have htotal := hwr.total ex hmem
  have hpos := hwr.pos ex hmem
  match hbx : ex.bufferExtents with
  | [] =>
    simp only [hbx, map_nil, sum_nil] at htotal
    omega
  | [(a, la)] =>
    simp only [hbx, map_cons, map_nil, sum_cons, sum_nil, Nat.add_zero] at htotal
    exact .inl ⟨a, by rw [htotal]⟩
  | _ :: _ :: _ =>
    right
    simp

namespace Cacher

variable {c c' : Cacher} {wr : OSDWrite} {ex : ObjectExtent}

theorem writeKey_name (ex : ObjectExtent) : ex.oid = Soid.name (writeKey ex) := rfl

theorem writeObject_spec (oset : ObjectSet) (now : ℕ) (hc : c.Ok) (hwr : wr.Ok)
    (hmem : ex ∈ wr.extents) {first : ℕ}
    (hfrag : ex.bufferExtents = [(first, ex.length)]) :
    ∃ rest f l l', c.writeObject oset wr now ex = .ok (c.put (writeKey ex) f) ∧
      (c.put (writeKey ex) f).Ok ∧
      Focus.Becomes rest
        ⟨c.books, c.objectFor (writeKey ex) ex.oid ex.objectno oset ex.truncateSize⟩ l' f ∧
      Shape l ∧ (∀ e ∈ l, e.2.Filled) ∧
      Merges .dirty (fun b => b = ex.offset ∨ b = ex.offset + ex.length) l l' ∧
      ∀ b, cells l b = if ex.offset ≤ b ∧ b < ex.offset + ex.length then
        some (.dirty wr.bl[first + (b - ex.offset)]? wr.snapc) else c.cell (writeKey ex) b := by
  have hc1 := hc.getObject ex.objectno oset ex.truncateSize (writeKey_name ex)
  have hfind := getObject_find? c (writeKey ex) ex.oid ex.objectno oset ex.truncateSize
  have hoid := hc.objectFor_oid ex.objectno oset ex.truncateSize (writeKey_name ex)
  obtain ⟨pre, post, he⟩ := SortedMap.exists_split_of_find? hfind
  have hf := hc1.focus he
  obtain ⟨f, l, l', hrun, hf', hshape, hfill, hmerge, hcells⟩ :=
    Focus.writeExtent_spec hf hwr hmem hoid.symm hfrag now
  have hentries := hf'.entries
  have hput : (c.getObject (writeKey ex) ex.oid ex.objectno oset ex.truncateSize).put
      (writeKey ex) f =
      c.put (writeKey ex) f := put_put _ _ _ _
  refine ⟨_, f, l, l', ?_, ?_, hf', hshape, hfill, hmerge, ?_⟩
  · rw [writeObject, atObject_eq hfind hrun, hput]
  · rw [← hput]
    refine hc1.put he ⟨hf'.accounts, ?_, ?_⟩ ?_
    · rw [hentries]
      exact hmerge.shape hshape
    · rw [hentries]
      exact hmerge.filled hfill
    · exact (congrArg Object.oid hf'.frame :)
  · intro b
    rw [hcells, objectFor_cells]

end Cacher

end CephDokan.ObjectCacher
