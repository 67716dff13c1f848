import CephDokan.Osdc.ObjectCacher.Cells

/-!
# Splitting and merging buffer heads

`split` cuts one head in two and `mergeLeft` joins two, with the accounts following.
`tryMergeBh` joins a head with those of its neighbours that touch it and have its state.
-/

namespace CephDokan.ObjectCacher

open Fallible List SortedMap

/-- `l'` comes from `l` by joining heads of state `s` that touch at a byte in `seam`. -/
inductive Merges (s : BhState) (seam : ℕ → Prop) : List Entry → List Entry → Prop
  | refl (l : List Entry) : Merges s seam l l
  | step {l pre post : List Entry} {kl kr : ℕ} {left right : BufferHead} :
    Merges s seam l (pre ++ (kl, left) :: (kr, right) :: post) → left.stop = kr →
    left.state = s → right.state = s → seam kr →
    Merges s seam l (pre ++ (kl, left.joined right) :: post)

namespace Merges

variable {s : BhState} {seam : ℕ → Prop} {l l' l'' : List Entry}

section

variable (h : Merges s seam l l')

include h

theorem trans (h' : Merges s seam l' l'') : Merges s seam l l'' := by
  induction h' with
  | refl => exact h
  | step _ hstop hl hr hseam ih => exact ih.step hstop hl hr hseam

theorem mono {seam'} (hs : ∀ b, seam b → seam' b) : Merges s seam' l l' := by
  induction h with
  | refl => exact Merges.refl _
  | step _ hstop hl hr hseam ih => exact ih.step hstop hl hr (hs _ hseam)

theorem shape (hl : Shape l) : Shape l' := by
  induction h with
  | refl => exact hl
  | step _ hstop _ _ _ ih => exact (ih).joined hstop

theorem filled (hl : ∀ e ∈ l, e.2.Filled) : ∀ e ∈ l', e.2.Filled := by
  induction h with
  | refl => exact hl
  | step _ hstop hleft hright _ ih =>
    intro e he
    simp only [mem_append, mem_cons] at he ih
    rcases he with he | rfl | he
    · exact ih e (.inl he)
    · exact (ih _ (.inr (.inl rfl))).joined (ih _ (.inr (.inr (.inl rfl))))
        (hleft.trans hright.symm)
    · exact ih e (.inr (.inr (.inr he)))

section

variable (hl : Shape l) (hfill : ∀ e ∈ l, e.2.Filled) (htx : s ≠ .tx) (hrx : s ≠ .rx)

include hl hfill htx hrx

theorem cells_forget (b : ℕ) : (cells l' b).map Cell.forget = (cells l b).map Cell.forget := by
  induction h with
  | refl => rfl
  | step hm hstop hleft hright _ ih =>
    have hfilled := hm.filled hfill _ (mem_append_right _ mem_cons_self)
    rw [← ih]
    subst hleft
    exact cells_joined_forget (hm.shape hl) hstop hfilled hright.symm htx hrx b

theorem cells_eq_of_seam
    (hseam : s = .dirty → ∀ b, seam (b + 1) → ∀ x t y u, cells l b = some (.dirty x t) →
      cells l (b + 1) = some (.dirty y u) → t = u) (b : ℕ) : cells l' b = cells l b := by
  induction h generalizing b with
  | refl => rfl
  | @step pre post kl kr left right hm hstop hleft hright hkr ih =>
    have hshape := hm.shape hl
    have hfilled := hm.filled hfill _ (mem_append_right _ mem_cons_self)
    rw [← ih]
    subst hleft
    refine cells_joined hshape hstop hfilled hright.symm htx hrx ?_ b
    intro hd
    -- the last byte of the left head and the first one of the right head
    have hokl : EntryOk (kl, left) := hshape.mid_ok
    have hok : EntryOk (kr, right) := hshape.entry _ (by simp)
    have hend : left.stop = kl + left.length := hokl.stop
    have hposl : 0 < left.length := hokl.pos
    have hpos : 0 < right.length := hok.pos
    obtain ⟨c, rfl⟩ : ∃ c, kr = c + 1 := ⟨kr - 1, by omega⟩
    have hat : cells (pre ++ (kl, left) :: (c + 1, right) :: post) c =
        some (.dirty left.bl[c - left.start]? left.snapc) := by
      rw [cells_mid hshape (by omega) (by omega)]
      simp only [BufferHead.cell, hd]
    have hat' : cells (pre ++ (kl, left) :: (c + 1, right) :: post) (c + 1) =
        some (.dirty right.bl[c + 1 - right.start]? right.snapc) := by
      have hshape' : Shape ((pre ++ [(kl, left)]) ++ (c + 1, right) :: post) := by
        simpa using hshape
      have hmid := cells_mid hshape' le_rfl (Nat.lt_add_of_pos_right hpos)
      rw [append_assoc, singleton_append] at hmid
      rw [hmid]
      simp only [BufferHead.cell, hright, hd]
    rw [ih] at hat hat'
    exact hseam hd c hkr _ _ _ _ hat hat'

theorem cells_eq (hdirty : s ≠ .dirty) (b : ℕ) : cells l' b = cells l b :=
  h.cells_eq_of_seam hl hfill htx hrx (fun hd => absurd hd hdirty) b

end

end

end Merges

namespace Focus

variable {rest : Multiset Item} {f : Focus} {pre post : List Entry} {k off : ℕ}
  {bh left right : BufferHead}

theorem splitBl_spec {bl : Bytes} {a b : ℕ} (h : bl = [] ∨ bl.length = a + b) :
    splitBl bl a b = .ok (bl.take a, bl.drop a) := by
  unfold splitBl
  split_ifs with hempty
  · obtain rfl := eq_nil_of_length_eq_zero hempty
    simp
  · have hlen : bl.length = a + b := by
      rcases h with rfl | h
      · simp at hempty
      · exact h
    rw [assertThat_of hlen, ok_bind, Bytes.substrOf_of_le (by omega), ok_bind,
      Bytes.substrOf_of_le (by omega), ok_bind]
    have htake : (bl.drop a).take b = bl.drop a := take_of_length_le (by simp; omega)
    rw [htake, drop_zero]
    rfl

theorem setLength_nextBh {f'} {len : ℕ} (h : f.setLength k len = .ok f') :
    f'.books.nextBh = f.books.nextBh := by
  obtain ⟨bh, -, hf'⟩ := bind_eq_ok.mp h
  cases hf'
  simp [exchange, bhStatAdd, assign, bhStatSub, statBy_eq]

theorem split_spec (hf : Accounts rest f) (h : f.ob.data.entries = pre ++ (k, bh) :: post)
    (hok : EntryOk (k, bh)) (hbl : bh.bl = [] ∨ bh.bl.length = bh.length) (hoff : k < off)
    (hlen : off < k + bh.length) (hpost : ∀ e ∈ post, k + bh.length ≤ e.1) :
    ∃ f' id, f.split k off = .ok f' ∧
      Becomes rest f (pre ++ (k, bh.cutLeft off) :: (off, bh.cutRight off id) :: post) f' := by
  have hstart : bh.start = k := hok.start
  obtain ⟨hacc, hid, hnew⟩ := newBh_spec hf
  obtain ⟨f1, hrun1, hf1⟩ := setLength_spec hacc h (off - bh.start)
  have hnext := setLength_nextBh hrun1
  have hpre : ∀ e ∈ pre, e.1 < k := lt_of_mem_before h
  -- the right part enters the object with the state of the left one
  obtain ⟨right, hright⟩ : ∃ right : BufferHead, right = { f.newBh.1 with
      dontneed := bh.dontneed
      lastWriteTid := bh.lastWriteTid
      lastReadTid := bh.lastReadTid
      state := bh.state
      snapc := bh.snapc
      start := off
      length := bh.length - (off - bh.start) } := ⟨_, rfl⟩
  have hrs : right.start = off := by rw [hright]
  obtain ⟨f2, hrun2, hf2⟩ : ∃ f2, f1.bhAdd right = .ok f2 ∧ Becomes rest f1
      ((pre ++ [(k, { bh with length := off - bh.start })]) ++
        (right.start, right) :: post) f2 := by
    refine bhAdd_spec hf1.accounts ?_ ?_ ?_ ?_ ?_
    · simpa using hf1.entries
    · intro e he
      simp only [mem_append, mem_singleton] at he
      rcases he with he | rfl
      · exact hrs ▸ (hpre e he).trans hoff
      · exact hrs ▸ hoff
    · intro e he
      have := hpost e he
      omega
    · rw [hright, hnext]
      exact hid
    · intro i hi
      have hids : ∃ j ∈ itemsOf f.ob.oset f.ob.data.entries + rest, j.id = i.id := by
        rw [hf1.entries, hf1.oset] at hi
        rw [h]
        simp only [itemsOf_mid, Multiset.cons_add, Multiset.mem_cons] at hi ⊢
        rcases hi with rfl | hi
        · exact ⟨_, .inl rfl, rfl⟩
        · exact ⟨i, .inr hi, rfl⟩
      obtain ⟨j, hj, hji⟩ := hids
      rw [← hji, hright]
      exact hnew j hj
  rw [hrs] at hf2
  obtain ⟨f3, hf3⟩ : ∃ f3, f3 = f2.assign off (bh.cutRight off right.id) := ⟨_, rfl⟩
  have hb3 : Becomes rest f2 ((pre ++ [(k, { bh with length := off - bh.start })]) ++
      (off, bh.cutRight off right.id) :: post) f3 := by
    rw [hf3]
    exact assign_spec hf2.accounts hf2.entries (by rw [hright]; rfl)
  have hentries : f3.ob.data.entries = pre ++ (k, { bh with length := off - bh.start }) ::
      (off, bh.cutRight off right.id) :: post := by
    rw [hb3.entries, append_assoc]
    rfl
  have hb4 : Becomes rest f3 (pre ++ (k, bh.cutLeft off) ::
      (off, bh.cutRight off right.id) :: post) (f3.assign k (bh.cutLeft off)) :=
    assign_spec hb3.accounts hentries rfl
  refine ⟨_, right.id, ?_, ⟨hb4.entries, hb4.accounts, ?_⟩⟩
  · have hsplit : splitBl bh.bl (off - bh.start) (bh.length - (off - bh.start)) =
        .ok (bh.bl.take (off - bh.start), bh.bl.drop (off - bh.start)) := by
      apply splitBl_spec
      refine hbl.imp_right ?_
      intro hl
      omega
    rw [split, deref_eq h, ok_bind]
    simp only
    rw [hrun1, ok_bind, ← hright, hrun2, ok_bind, hsplit, ok_bind, hf3, hright]
    rfl
  · rw [hb4.frame, hb3.frame, hf2.frame, hf1.frame]
    rfl

theorem mergeLeft_spec {kl kr : ℕ} (hf : Accounts rest f)
    (h : f.ob.data.entries = pre ++ (kl, left) :: (kr, right) :: post)
    (hstart : right.start = kr) (hstop : left.stop = kr) (hstate : left.state = right.state) :
    ∃ f', f.mergeLeft kl kr = .ok f' ∧
      Becomes rest f (pre ++ (kl, left.joined right) :: post) f' := by
  have h' : f.ob.data.entries = (pre ++ [(kl, left)]) ++ (kr, right) :: post := by simpa using h
  obtain ⟨f1, hrun1, hf1⟩ := bhRemove_spec hf h' hstart
  have he1 : f1.ob.data.entries = pre ++ (kl, left) :: post := by simpa using hf1.entries
  obtain ⟨f2, hrun2, hf2⟩ := setLength_spec hf1.accounts he1 (left.length + right.length)
  have hf3 : Becomes rest f2 (pre ++ (kl, left.joined right) :: post)
      (f2.assign kl (left.joined right)) := assign_spec hf2.accounts hf2.entries rfl
  refine ⟨_, ?_, (hf1.trans hf2).trans hf3⟩
  rw [mergeLeft, deref_eq h, ok_bind, deref_eq h', ok_bind,
    assertThat_of (hstop.trans hstart.symm), ok_bind, assertThat_of hstate,
    ok_bind, hrun1, ok_bind, hrun2]
  rfl

section

variable (hf : Accounts rest f) (h : f.ob.data.entries = pre ++ (k, bh) :: post)
  (hshape : Shape (pre ++ (k, bh) :: post))

include hf h hshape

theorem tryMergeLeft_spec : ∃ f' k' pre' bh', f.tryMergeLeft k = .ok (f', k') ∧
      Becomes rest f (pre' ++ (k', bh') :: post) f' ∧
      Merges bh.state (fun b => b = k) (pre ++ (k, bh) :: post) (pre' ++ (k', bh') :: post) ∧
      bh'.state = bh.state ∧ bh'.stop = bh.stop := by
  have hstart : bh.start = k := hshape.mid_ok.start
  have hstay : f.tryMergeLeft k = .ok (f, k) → ∃ f' k' pre' bh', f.tryMergeLeft k = .ok (f', k') ∧
      Becomes rest f (pre' ++ (k', bh') :: post) f' ∧
      Merges bh.state (fun b => b = k) (pre ++ (k, bh) :: post) (pre' ++ (k', bh') :: post) ∧
      bh'.state = bh.state ∧ bh'.stop = bh.stop :=
    fun hrun => ⟨f, k, pre, bh, hrun, hf.becomes h, Merges.refl _, rfl, rfl⟩
  rcases eq_nil_or_concat pre with rfl | ⟨pre', ⟨kl, left⟩, rfl⟩
  · apply hstay
    rw [tryMergeLeft, deref_eq h, ok_bind, prev_split h]
    rfl
  · have h' : f.ob.data.entries = pre' ++ (kl, left) :: (k, bh) :: post := by simpa using h
    have hprev : f.ob.data.prev k = some kl := by
      rw [prev_split h]
      simp
    have hrun : f.tryMergeLeft k = if left.stop = bh.start ∧ left.state = bh.state then (do
        let f ← f.mergeLeft kl k
        return (f, kl)) else .ok (f, k) := by
      rw [tryMergeLeft, deref_eq h, ok_bind, hprev]
      simp only
      rw [deref_eq h', ok_bind]
      rfl
    by_cases hc : left.stop = bh.start ∧ left.state = bh.state
    · obtain ⟨f', hm, hf'⟩ := mergeLeft_spec hf h' hstart (hc.1.trans hstart) hc.2
      refine ⟨f', kl, pre', left.joined bh, ?_, hf', ?_, hc.2, ?_⟩
      · rw [hrun, if_pos hc, hm]
        rfl
      · have hm : Merges bh.state (fun b => b = k) (pre'.concat (kl, left) ++ (k, bh) :: post)
            (pre' ++ (kl, left) :: (k, bh) :: post) := by
          simpa using Merges.refl _
        exact hm.step (hc.1.trans hstart) hc.2 rfl rfl
      · have hst : left.start + left.length = bh.start := hc.1
        simp only [BufferHead.stop, BufferHead.joined]
        omega
    · apply hstay
      rw [hrun, if_neg hc]

theorem tryMergeRight_spec : ∃ f' l, f.tryMergeRight k = .ok f' ∧ Becomes rest f l f' ∧
      Merges bh.state (fun b => b = bh.stop) (pre ++ (k, bh) :: post) l := by
  cases post with
  | nil =>
    refine ⟨f, _, ?_, hf.becomes h, Merges.refl _⟩
    rw [tryMergeRight, deref_eq h, ok_bind, next_split h]
    rfl
  | cons e post =>
    obtain ⟨kr, right⟩ := e
    have h' : f.ob.data.entries = (pre ++ [(k, bh)]) ++ (kr, right) :: post := by simpa using h
    have hright : right.start = kr := (hshape.entry (kr, right) (by simp)).start
    have hnext : f.ob.data.next k = some kr := by rw [next_split h]; rfl
    have hrun : f.tryMergeRight k = if right.start = bh.stop ∧ right.state = bh.state then
        f.mergeLeft k kr else .ok f := by
      rw [tryMergeRight, deref_eq h, ok_bind, hnext]
      simp only
      rw [deref_eq h', ok_bind]
      rfl
    by_cases hc : right.start = bh.stop ∧ right.state = bh.state
    · have hstop : bh.stop = kr := hc.1.symm.trans hright
      obtain ⟨f', hm, hf'⟩ := mergeLeft_spec hf h hright hstop hc.2.symm
      refine ⟨f', _, by rw [hrun, if_pos hc, hm], hf', ?_⟩
      exact (Merges.refl _).step hstop rfl hc.2 hstop.symm
    · exact ⟨f, _, by rw [hrun, if_neg hc], hf.becomes h, Merges.refl _⟩

theorem tryMergeBh_spec : ∃ f' l, f.tryMergeBh k = .ok f' ∧ Becomes rest f l f' ∧
      Merges bh.state (fun b => b = k ∨ b = bh.stop) (pre ++ (k, bh) :: post) l := by
  by_cases hrx : bh.state = .rx
  · refine ⟨f, _, ?_, hf.becomes h, Merges.refl _⟩
    rw [tryMergeBh, deref_eq h, ok_bind, if_pos hrx]
    rfl
  · obtain ⟨f1, k1, pre1, bh1, hrun1, hf1, hm1, hstate, hstop⟩ := tryMergeLeft_spec hf h hshape
    obtain ⟨f2, l, hrun2, hf2, hm2⟩ :=
      tryMergeRight_spec hf1.accounts hf1.entries (hm1.shape hshape)
    refine ⟨f2, l, ?_, hf1.trans hf2, ?_⟩
    · rw [tryMergeBh, deref_eq h, ok_bind, if_neg hrx, assertThat_of hshape.mid_ok.start,
        ok_bind, hrun1]
      exact hrun2
    · rw [hstate, hstop] at hm2
      exact (hm1.mono fun _ => .inl).trans (hm2.mono fun _ => .inr)

end

end Focus

end CephDokan.ObjectCacher
