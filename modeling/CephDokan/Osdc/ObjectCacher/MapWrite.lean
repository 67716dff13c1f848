import CephDokan.Osdc.ObjectCacher.SplitMerge

/-!
# One buffer head for a write

`map_write` cuts and joins what the object holds until one buffer head is exactly the
range of the write. `Mapped` is what its loop keeps: the head that grows from `off`, up
to `cur` so far, and around it everything the object held outside the range.
-/

namespace CephDokan.ObjectCacher.Focus

open Fallible List SortedMap

variable {rest : Multiset Item} {f f0 : Focus} {pre post : List Entry} {k off stop cur : ℕ}
  {bh fin : BufferHead}

/-- Of the range `[off, stop)` the part up to `cur` is the head `fin`. -/
structure Mapped (rest : Multiset Item) (f0 : Focus) (off stop cur : ℕ) (f : Focus)
    (pre : List Entry) (fin : BufferHead) (post : List Entry) : Prop where
  becomes : Becomes rest f0 (pre ++ (off, fin) :: post) f
  shape : Shape (pre ++ (off, fin) :: post)
  filled : ∀ e ∈ pre ++ post, e.2.Filled
  outside : ∀ b, b < off ∨ stop ≤ b → cells (pre ++ post) b = cells f0.ob.data.entries b
  reach : off + fin.length = cur
  le : cur ≤ stop

theorem splitBeyond_spec {limit : ℕ} (hf : Accounts rest f)
    (h : f.ob.data.entries = pre ++ (k, bh) :: post) (hshape : Shape (pre ++ (k, bh) :: post))
    (hfill : bh.Filled) (hk : k < limit) : ∃ f' bh' extra, f.splitBeyond k limit = .ok f' ∧
      Becomes rest f (pre ++ (k, bh') :: (extra ++ post)) f' ∧
      Shape (pre ++ (k, bh') :: (extra ++ post)) ∧ bh'.Filled ∧ (∀ e ∈ extra, e.2.Filled) ∧
      k + bh'.length = min (k + bh.length) limit ∧
      cells (pre ++ (k, bh') :: (extra ++ post)) = cells (pre ++ (k, bh) :: post) := by
  have hok := hshape.mid_ok
  have hstop : bh.stop = k + bh.length := hok.stop
  have hstart : bh.start = k := hok.start
  by_cases hle : bh.stop ≤ limit
  · refine ⟨f, bh, [], ?_, hf.becomes h, hshape, hfill, by simp, ?_, rfl⟩
    · rw [splitBeyond, deref_eq h, ok_bind, if_pos hle]
      rfl
    · omega
  · have hlen : limit < k + bh.length := by omega
    obtain ⟨f', id, hrun, hf'⟩ := split_spec hf h hok hfill.bl_length hk hlen hshape.le_post
    refine ⟨f', bh.cutLeft limit, [(limit, bh.cutRight limit id)], ?_, hf', hshape.cut hk hlen id,
      hfill.cutLeft (by omega), ?_, ?_, cells_cut hok hk hlen id⟩
    · rw [splitBeyond, deref_eq h, ok_bind, if_neg hle, hrun]
    · intro e he
      obtain rfl := mem_singleton.mp he
      exact hfill.cutRight id
    · simp only [BufferHead.cutLeft]
      omega

variable {len : ℕ}

theorem growFinal_none_spec (hf : Accounts rest f) (h : f.ob.data.entries = pre ++ post)
    (hshape : Shape (pre ++ post)) (hfill : ∀ e ∈ pre ++ post, e.2.Filled)
    (hpre : ∀ e ∈ pre, e.1 + e.2.length ≤ off) (hpost : ∀ e ∈ post, off + len ≤ e.1)
    (hlen : 0 < len) (hstop : off + len ≤ stop) :
    ∃ f' fin, f.growFinal none off len = .ok (f', off) ∧
      Mapped rest f off stop (off + len) f' pre fin post := by
  have hlt : ∀ e ∈ pre, e.1 < off := by
    intro e he
    have hpos := (hshape.entry e (mem_append_left _ he)).pos
    have := hpre e he
    omega
  have hgt : ∀ e ∈ post, off < e.1 := by
    intro e he
    have := hpost e he
    omega
  obtain ⟨f', id, hrun, hf'⟩ := addMissing_aux hf h len hlt hgt
  refine ⟨f', _, ?_, hf', ?_, hfill, ?_, rfl, hstop⟩
  · exact congrArg (fun r => r >>= fun f => pure (f, off)) hrun
  · exact hshape.add ⟨rfl, hlen, by simp⟩ hpre hpost
  · intro b _
    rw [h]

theorem growFinal_some_spec (len : ℕ) (hm : Mapped rest f0 off stop cur f pre fin post)
    (hpost : ∀ e ∈ post, cur + len ≤ e.1) (hstop : cur + len ≤ stop) :
    ∃ f' fin', f.growFinal (some off) cur len = .ok (f', off) ∧
      Mapped rest f0 off stop (cur + len) f' pre fin' post := by
  have hreach := hm.reach
  have hentries := hm.becomes.entries
  have hok := hm.shape.mid_ok
  obtain ⟨f', hrun, hf'⟩ := setLength_spec hm.becomes.accounts hentries (fin.length + len)
  refine ⟨f', _, ?_, hm.becomes.trans hf', ?_, hm.filled, hm.outside, ?_, hstop⟩
  · rw [growFinal, deref_eq hentries, ok_bind, hrun]
    rfl
  · refine hm.shape.set ⟨hok.start, Nat.add_pos_left hok.pos _, ?_⟩ rfl ?_
    · intro w hw
      have := hok.waiters w hw
      simp only at *
      omega
    · intro e he
      have := hpost e he
      simp only
      omega
  · simp only
    omega

theorem takeBh_none_spec (hf : Accounts rest f) (h : f.ob.data.entries = pre ++ (k, bh) :: post)
    (hshape : Shape (pre ++ (k, bh) :: post)) (hfill : ∀ e ∈ pre ++ (k, bh) :: post, e.2.Filled)
    (hk : k ≤ off) (hend : off < k + bh.length) (hlen : 0 < len) :
    ∃ f' pre' fin post', f.takeBh none k off len = .ok (f', off) ∧
      Mapped rest f off (off + len) (min (k + bh.length) (off + len)) f' pre' fin post' := by
  have hok := hshape.mid_ok
  have hfbh : bh.Filled := hfill (k, bh) (by simp)
  have hfpre : ∀ e ∈ pre, e.2.Filled := fun e he => hfill e (by simp [he])
  have hfpost : ∀ e ∈ post, e.2.Filled := fun e he => hfill e (by simp [he])
  have hstart : bh.start = k := hok.start
  by_cases hlt : k < off
  · obtain ⟨f1, id, hrun1, hf1⟩ := split_spec hf h hok hfbh.bl_length hlt hend hshape.le_post
    have hcut := hshape.cut hlt hend id
    have he1 : f1.ob.data.entries =
        (pre ++ [(k, bh.cutLeft off)]) ++ (off, bh.cutRight off id) :: post := by
      simpa using hf1.entries
    have hs1 : Shape ((pre ++ [(k, bh.cutLeft off)]) ++ (off, bh.cutRight off id) :: post) := by
      simpa using hcut
    obtain ⟨f2, fin, extra, hrun2, hf2, hs2, hfin, hextra, hreach, hcells⟩ :=
      splitBeyond_spec hf1.accounts he1 hs1 (hfbh.cutRight id) (by omega : off < off + len)
    refine ⟨f2, pre ++ [(k, bh.cutLeft off)], fin, extra ++ post, ?_, hf1.trans hf2, hs2, ?_, ?_,
      ?_, ?_⟩
    · rw [takeBh, if_pos hlt, assertThat_of rfl, ok_bind, hrun1, ok_bind,
        assertThat_of, ok_bind, hrun2]
      · rfl
      · rw [next_split hf1.entries]
        rfl
    · intro e he
      simp only [mem_append, mem_singleton] at he
      rcases he with (he | rfl) | he | he
      · exact hfpre e he
      · exact hfbh.cutLeft (by omega)
      · exact hextra e he
      · exact hfpost e he
    · intro b hb
      rw [← cells_skip off fin (by omega), hcells, h, ← cells_cut hok hlt hend id]
      simp
    · simp only [BufferHead.cutRight] at hreach
      omega
    · omega
  · obtain rfl : k = off := by omega
    obtain ⟨f2, fin, extra, hrun2, hf2, hs2, hfin, hextra, hreach, hcells⟩ :=
      splitBeyond_spec hf h hshape hfbh (by omega : k < k + len)
    refine ⟨f2, pre, fin, extra ++ post, ?_, hf2, hs2, ?_, ?_, hreach, by omega⟩
    · rw [takeBh, if_neg hlt, assertThat_of rfl, ok_bind, hrun2]
      rfl
    · intro e he
      simp only [mem_append] at he
      rcases he with he | he | he
      · exact hfpre e he
      · exact hextra e he
      · exact hfpost e he
    · intro b hb
      rw [← cells_skip k fin (by omega), hcells, h]

theorem takeBh_some_spec (hm : Mapped rest f0 off stop cur f pre fin ((cur, bh) :: post))
    (hlt : cur < stop) : ∃ f' pre' fin' post',
      f.takeBh (some off) cur cur (stop - cur) = .ok (f', off) ∧
      Mapped rest f0 off stop (min (cur + bh.length) stop) f' pre' fin' post' := by
  have hreach := hm.reach
  have hentries : f.ob.data.entries = (pre ++ [(off, fin)]) ++ (cur, bh) :: post := by
    simpa using hm.becomes.entries
  have hshape : Shape ((pre ++ [(off, fin)]) ++ (cur, bh) :: post) := by simpa using hm.shape
  have hfill : bh.Filled := hm.filled (cur, bh) (by simp)
  have hstop : cur + (stop - cur) = stop := by omega
  obtain ⟨f1, bh1, extra, hrun1, hf1, hs1, -, hextra, hlen1, hcells⟩ :=
    splitBeyond_spec hm.becomes.accounts hentries hshape hfill hlt
  -- both heads are marked dirty, so that they can be joined
  obtain ⟨f2, hrun2, hf2⟩ := markDirty_spec hf1.accounts hf1.entries
  have hs2 : Shape ((pre ++ [(off, fin)]) ++ (cur, bh1.withState .dirty) :: (extra ++ post)) :=
    hs1.same rfl rfl rfl
  have he2 : f2.ob.data.entries =
      pre ++ (off, fin) :: (cur, bh1.withState .dirty) :: (extra ++ post) := by
    simpa using hf2.entries
  obtain ⟨f3, hrun3, hf3⟩ := markDirty_spec hf2.accounts he2
  have hs3 : Shape (pre ++ (off, fin.withState .dirty) :: (cur, bh1.withState .dirty) ::
      (extra ++ post)) := by
    have hs : Shape (pre ++ (off, fin) :: (cur, bh1.withState .dirty) :: (extra ++ post)) := by
      simpa using hs2
    exact hs.same rfl rfl rfl
  have hok : EntryOk (off, fin) := hm.shape.mid_ok
  have hfin : (fin.withState .dirty).stop = cur := by
    have hst : fin.stop = off + fin.length := hok.stop
    exact hst.trans hreach
  have hstart : (bh1.withState .dirty).start = cur := hs2.mid_ok.start
  obtain ⟨f4, hrun4, hf4⟩ := mergeLeft_spec hf3.accounts hf3.entries hstart hfin rfl
  refine ⟨f4, pre, (fin.withState .dirty).joined (bh1.withState .dirty), extra ++ post, ?_,
    (((hm.becomes.trans hf1).trans hf2).trans hf3).trans hf4, hs3.joined hfin, ?_, ?_, ?_, ?_⟩
  · have hprev : f3.ob.data.prev cur = some off := by
      have he : f3.ob.data.entries = (pre ++ [(off, fin.withState .dirty)]) ++
          (cur, bh1.withState .dirty) :: (extra ++ post) := by
        simpa using hf3.entries
      rw [prev_split he]
      simp
    rw [takeBh, if_neg (lt_irrefl cur), assertThat_of rfl, ok_bind, hstop, hrun1, ok_bind]
    simp only
    rw [hrun2, ok_bind, hrun3, ok_bind, assertThat_of hprev, ok_bind, hrun4]
    rfl
  · intro e he
    simp only [mem_append] at he
    rcases he with he | he | he
    · exact hm.filled e (by simp [he])
    · exact hextra e he
    · exact hm.filled e (by simp [he])
  · intro b hb
    have hcell := congrFun hcells b
    rw [cells_skip cur bh1 (by omega), append_assoc, append_assoc] at hcell
    have hout := hm.outside b hb
    rw [singleton_append, singleton_append, cells_skip off fin (by omega),
      cells_skip off fin (by omega), hout] at hcell
    exact hcell
  · simp only [BufferHead.joined, BufferHead.withState]
    omega
  · omega

theorem mapWriteLoop_done (fuel : ℕ) (f : Focus) (final p : Option ℕ) (cur : ℕ) :
    mapWriteLoop fuel f final p cur 0 = .ok (f, final) := by
  cases fuel with
  | zero => rfl
  | succ fuel => rfl

theorem room_of_gap {n : ℕ} (hshape : Shape (pre ++ (k, bh) :: post))
    (hn : cur + n ≤ k) : ∀ e ∈ (k, bh) :: post, cur + n ≤ e.1 := by
  intro e hmem
  rcases mem_cons.mp hmem with rfl | hmem
  · exact hn
  · have hle : k + bh.length ≤ e.1 := hshape.le_post e hmem
    omega

variable {final : Option ℕ}

/-- One round of the loop of `map_write`, whether it has a head already or not: the head grows over
a gap or takes what it can of the next one. -/
theorem mapWriteLoop_round (fuel : ℕ) {l} (hlt : cur < stop)
    (hshape : Shape (l ++ post)) (hpost : ∀ e ∈ post, cur < e.1 + e.2.length)
    (hgrow : ∀ len, 0 < len → cur + len ≤ stop → (∀ e ∈ post, cur + len ≤ e.1) →
      ∃ f' fin, f.growFinal final cur len = .ok (f', off) ∧
        Mapped rest f0 off stop (cur + len) f' pre fin post)
    (htake : ∀ k bh post', post = (k, bh) :: post' → k ≤ cur →
      ∃ f' pre' fin post'', f.takeBh final k cur (stop - cur) = .ok (f', off) ∧
        Mapped rest f0 off stop (min (k + bh.length) stop) f' pre' fin post'') :
    ∃ f' cur' pre' fin post', cur < cur' ∧
      mapWriteLoop (fuel + 1) f final (post.head?.map Prod.fst) cur (stop - cur) =
        mapWriteLoop fuel f' (some off) (post'.head?.map Prod.fst) cur' (stop - cur') ∧
      Mapped rest f0 off stop cur' f' pre' fin post' := by
  rw [show mapWriteLoop (fuel + 1) f final _ cur (stop - cur) = _ from if_neg (by omega)]
  cases post with
  | nil =>
    obtain ⟨f1, fin, hrun, hm⟩ := hgrow (stop - cur) (by omega) (by omega) (by simp)
    rw [show cur + (stop - cur) = stop by omega] at hm
    refine ⟨f1, stop, pre, fin, [], hlt, ?_, hm⟩
    simp only [head?_nil, Option.map_none, hrun, ok_bind, mapWriteLoop_done, Nat.sub_self]
  | cons e post =>
    obtain ⟨k, bh⟩ := e
    have hin : cur < k + bh.length := hpost (k, bh) mem_cons_self
    simp only [head?_cons, Option.map_some]
    by_cases hk : k ≤ cur
    · obtain ⟨f1, pre1, fin, post1, hrun, hm⟩ := htake k bh post rfl hk
      have hst : fin.stop = off + fin.length := hm.shape.mid_ok.stop
      have hreach := hm.reach
      rw [show min (k + bh.length) stop = cur + (fin.stop - cur) by omega] at hm
      refine ⟨f1, _, pre1, fin, post1, by omega, ?_, hm⟩
      rw [if_pos hk, hrun, ok_bind]
      rw [deref_eq hm.becomes.entries, ok_bind, Nat.sub_sub, next_split hm.becomes.entries]
    · obtain ⟨f1, fin, hrun, hm⟩ := hgrow (min (k - cur) (stop - cur)) (by omega) (by omega)
        (room_of_gap hshape (by omega))
      refine ⟨f1, _, pre, fin, _, by omega, ?_, hm⟩
      rw [if_neg hk, hrun, ok_bind, Nat.sub_sub]
      rfl

theorem mapWriteLoop_some_spec (fuel : ℕ) (hm : Mapped rest f0 off stop cur f pre fin post)
    (hfuel : stop - cur ≤ fuel) :
    ∃ f' pre' fin' post',
      mapWriteLoop fuel f (some off) (post.head?.map Prod.fst) cur (stop - cur) =
        .ok (f', some off) ∧ Mapped rest f0 off stop stop f' pre' fin' post' := by
  rcases hm.le.eq_or_lt with rfl | hlt
  · exact ⟨f, pre, fin, post, by rw [Nat.sub_self, mapWriteLoop_done], hm⟩
  induction fuel generalizing f pre fin post cur with
  | zero => omega
  | succ fuel ih =>
    have hbehind : ∀ e ∈ post, cur ≤ e.1 := fun e he => hm.reach ▸ hm.shape.le_post e he
    obtain ⟨f1, cur1, pre1, fin1, post1, hmore, hrun, hm1⟩ := mapWriteLoop_round fuel hlt
      (l := pre ++ [(off, fin)]) (by simpa using hm.shape)
      (fun e he => by
        have hpos := (hm.shape.entry e (by simp [he])).pos
        have := hbehind e he
        omega)
      (fun len _ hstop hroom => growFinal_some_spec len hm hroom hstop)
      (fun k bh post' hcons hk => by
        subst hcons
        obtain rfl : k = cur := le_antisymm hk (hbehind (k, bh) mem_cons_self)
        exact takeBh_some_spec hm hlt)
    rcases hm1.le.eq_or_lt with rfl | hlt1
    · exact ⟨f1, pre1, fin1, post1, by rw [hrun, Nat.sub_self, mapWriteLoop_done], hm1⟩
    · obtain ⟨f2, pre2, fin2, post2, hrun2, hm2⟩ := ih hm1 (by omega) hlt1
      exact ⟨f2, pre2, fin2, post2, hrun.trans hrun2, hm2⟩

theorem dataLowerBound_spec (h : f.ob.data.entries = pre ++ post) (hshape : Shape (pre ++ post))
    (hpre : ∀ e ∈ pre, e.1 + e.2.length ≤ off) (hpost : ∀ e ∈ post, off < e.1 + e.2.length) :
    f.dataLowerBound off = post.head?.map Prod.fst := by
  have hlt : ∀ e ∈ pre, e.1 < off := by
    intro e he
    have hpos := (hshape.entry e (mem_append_left _ he)).pos
    have := hpre e he
    omega
  -- the head before the range, if there is one, ends before it
  have hback : pre.getLast?.map Prod.fst = none ∨ ∃ j left, pre.getLast?.map Prod.fst = some j ∧
      f.ob.data.find? j = some left ∧ j + left.length ≤ off := by
    rcases eq_nil_or_concat pre with rfl | ⟨pre', ⟨j, left⟩, rfl⟩
    · exact .inl rfl
    · have hj : f.ob.data.entries = pre' ++ (j, left) :: post := by simpa using h
      exact .inr ⟨j, left, by simp, find?_split hj, hpre (j, left) (by simp)⟩
  unfold dataLowerBound
  cases post with
  | nil =>
    have hlow : f.ob.data.lowerBound off = none := by
      rw [lowerBound_split h hlt (by simp)]
      rfl
    have hlast : f.ob.data.last = pre.getLast?.map Prod.fst := by
      rw [SortedMap.last, h, append_nil]
    rcases hback with hnone | ⟨j, left, hj, hfind, hle⟩
    · simp only [hlow, hlast, head?_nil, Option.map_none, hnone]
    · simp only [hlow, hlast, head?_nil, Option.map_none, hj, hfind, if_pos hle]
  | cons e post =>
    obtain ⟨k, bh⟩ := e
    have hin := hpost (k, bh) mem_cons_self
    have hnext : ∀ e ∈ post, k + bh.length ≤ e.1 := hshape.le_post
    simp only [head?_cons, Option.map_some]
    by_cases hk : off ≤ k
    · have hlow : f.ob.data.lowerBound off = some k := by
        rw [lowerBound_split h hlt]
        · rfl
        · intro e he
          rcases mem_cons.mp he with rfl | he
          · exact hk
          · have := hnext e he
            omega
      simp only [hlow]
      split_ifs with hgt
      · rcases hback with hnone | ⟨j, left, hj, hfind, hle⟩
        · simp only [prev_split h, hnone]
        · simp only [prev_split h, hj, hfind, if_pos hle]
      · rfl
    · have hfind := find?_split h
      have hlow : f.ob.data.lowerBound off = post.head?.map Prod.fst := by
        have h' : f.ob.data.entries = (pre ++ [(k, bh)]) ++ post := by simpa using h
        rw [lowerBound_split h']
        · intro e he
          simp only [mem_append, mem_singleton] at he
          rcases he with he | rfl
          · exact hlt e he
          · exact Nat.lt_of_not_le hk
        · intro e he
          have := hnext e he
          simp only at hin
          omega
      have hreach : ¬k + bh.length ≤ off := Nat.not_le.mpr hin
      cases post with
      | nil =>
        have hlast : f.ob.data.last = some k := by
          rw [SortedMap.last, h]
          simp
        simp only [hlow, head?_nil, Option.map_none, hlast, hfind, if_neg hreach]
      | cons e post =>
        have h' : f.ob.data.entries = (pre ++ [(k, bh)]) ++ (e.1, e.2) :: post := by simpa using h
        have hprev : f.ob.data.prev e.1 = some k := by
          rw [prev_split h']
          simp
        have hgt : e.1 > off := by
          have := hnext e mem_cons_self
          omega
        simp only [hlow, head?_cons, Option.map_some, if_pos hgt, hprev, hfind, if_neg hreach]

/-- `map_write` over one extent: a head of exactly this extent, everything else as before. -/
theorem mapWriteLoop_spec (off : ℕ) (hf : Accounts rest f) (hshape : Shape f.ob.data.entries)
    (hfill : ∀ e ∈ f.ob.data.entries, e.2.Filled) (hlen : 0 < len) :
    ∃ f' pre fin post, mapWriteLoop len f none (f.dataLowerBound off) off len =
        .ok (f', some off) ∧ Mapped rest f off (off + len) (off + len) f' pre fin post := by
  obtain ⟨pre, post, hsplit, hpre, hpost⟩ := Extents.exists_split hshape.ordered
    (fun e he => (hshape.entry e he).pos) off
  rw [hsplit] at hshape hfill
  rw [dataLowerBound_spec hsplit hshape hpre hpost]
  obtain ⟨n, rfl⟩ : ∃ n, len = n + 1 := ⟨len - 1, by omega⟩
  obtain ⟨f1, cur, pre1, fin1, post1, hlt, hrun, hm1⟩ := mapWriteLoop_round n
    (by omega : off < off + (n + 1)) hshape hpost
    (fun _ hlen hstop hroom => growFinal_none_spec hf hsplit hshape hfill hpre hroom hlen hstop)
    (fun k bh post' hcons hk => by
      subst hcons
      rw [Nat.add_sub_cancel_left]
      exact takeBh_none_spec hf hsplit hshape hfill hk (hpost _ mem_cons_self) hlen)
  obtain ⟨f2, pre2, fin2, post2, hrun2, hm2⟩ := mapWriteLoop_some_spec n hm1 (by omega)
  rw [Nat.add_sub_cancel_left] at hrun
  exact ⟨f2, pre2, fin2, post2, hrun.trans hrun2, hm2⟩

variable {extents : List ObjectExtent}

theorem mapWriteExtents_skip (h : ∀ ex ∈ extents, ex.oid ≠ f.ob.oid) :
    f.mapWriteExtents final extents = .ok (f, final) := by
  induction extents with
  | nil => rfl
  | cons ex extents ih =>
    rw [mapWriteExtents, if_pos (h ex mem_cons_self)]
    exact ih (fun e he => h e (mem_cons_of_mem _ he))

theorem mapWrite_spec {ex} (hf : Accounts rest f) (hshape : Shape f.ob.data.entries)
    (hfill : ∀ e ∈ f.ob.data.entries, e.2.Filled)
    (hdistinct : extents.Pairwise (fun e e' => e.oid ≠ e'.oid)) (hmem : ex ∈ extents)
    (hoid : ex.oid = f.ob.oid) (hlen : 0 < ex.length) :
    ∃ f' pre fin post, f.mapWrite extents = .ok (f', ex.offset) ∧
      Mapped rest f ex.offset (ex.offset + ex.length) (ex.offset + ex.length) f' pre fin post := by
  obtain ⟨f', pre, fin, post, hrun, hm⟩ := mapWriteLoop_spec ex.offset hf hshape hfill hlen
  have hoid' : f'.ob.oid = f.ob.oid := (congrArg Object.oid hm.becomes.frame :)
  refine ⟨f', pre, fin, post, ?_, hm⟩
  have hext : f.mapWriteExtents none extents = .ok (f', some ex.offset) := by
    induction extents with
    | nil => simp at hmem
    | cons e extents ih =>
      obtain ⟨hfirst, hrest⟩ := pairwise_cons.mp hdistinct
      rcases mem_cons.mp hmem with rfl | hmem
      · rw [mapWriteExtents, if_neg (fun hne => hne hoid), hrun, ok_bind]
        apply mapWriteExtents_skip
        intro e' he'
        rw [hoid', ← hoid]
        exact (hfirst e' he').symm
      · rw [mapWriteExtents, if_pos (fun heq => hfirst ex hmem (heq.trans hoid.symm))]
        exact ih hrest hmem
  rw [mapWrite, hext]
  rfl

end CephDokan.ObjectCacher.Focus
