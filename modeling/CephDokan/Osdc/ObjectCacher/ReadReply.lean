import CephDokan.Osdc.ObjectCacher.Runs

/-!
# Where the reply to a read lands

`bh_read_finish` for a read that succeeded, byte by byte. Every head that still waits for
the read is filled from the start of the reply, however far behind the start of the read the
head begins: `oldpos` is the start of the head, so `oldpos-bh->start()` is zero. A head
that was cut off the one that was asked for gets the wrong bytes.
-/

namespace CephDokan.ObjectCacher

open Fallible BufferHead List Extents SortedMap

namespace BufferHead

/-- The head waits for read `tid`. -/
def WaitsFor (tid : ℕ) (bh : BufferHead) : Prop := bh.state = .rx ∧ bh.lastReadTid = tid

instance (tid : ℕ) (bh : BufferHead) : Decidable (bh.WaitsFor tid) :=
  inferInstanceAs (Decidable (_ ∧ _))

/-- The head after the reply `bl` to read `tid`. -/
def answered (tid : ℕ) (bl : Bytes) (bh : BufferHead) : BufferHead :=
  if bh.WaitsFor tid then { bh with state := .clean, bl := bl.take bh.length } else bh

variable {tid : ℕ} {bl : Bytes} {bh : BufferHead}

theorem cell_eq_rx {b : ℕ} : bh.cell b = .rx tid ↔ bh.WaitsFor tid := by
  unfold cell WaitsFor
  cases bh.state <;> simp

theorem answered_of_waits (h : bh.WaitsFor tid) :
    bh.answered tid bl = { bh with state := .clean, bl := bl.take bh.length } := if_pos h

theorem answered_of_not (h : ¬bh.WaitsFor tid) : bh.answered tid bl = bh := if_neg h

theorem answered_of_state (h : bh.state ≠ .rx) : bh.answered tid bl = bh :=
  answered_of_not fun hw => h hw.1

@[simp] theorem answered_length : (bh.answered tid bl).length = bh.length := by
  unfold answered
  split_ifs <;> rfl

@[simp] theorem answered_start : (bh.answered tid bl).start = bh.start := by
  unfold answered
  split_ifs <;> rfl

@[simp] theorem answered_waitforRead : (bh.answered tid bl).waitforRead = bh.waitforRead := by
  unfold answered
  split_ifs <;> rfl

theorem cell_answered_waiters (w : SortedMap ℕ (List ℕ)) (b : ℕ) :
    (answered tid bl { bh with waitforRead := w }).cell b = (bh.answered tid bl).cell b := by
  have hiff : WaitsFor tid { bh with waitforRead := w } ↔ bh.WaitsFor tid := Iff.rfl
  unfold answered
  simp only [hiff]
  split_ifs <;> rfl

theorem Filled.answered (h : bh.Filled) (hlen : bh.WaitsFor tid → bh.length ≤ bl.length) :
    (bh.answered tid bl).Filled := by
  by_cases hw : bh.WaitsFor tid
  · rw [answered_of_waits hw]
    simpa [Filled] using hlen hw
  · rwa [answered_of_not hw]

end BufferHead

/-- The entries after the reply `bl` to read `tid`. -/
def answers (tid : ℕ) (bl : Bytes) (l : List Entry) : List Entry :=
  l.map fun e => (e.1, e.2.answered tid bl)

section Answers

variable {tid : ℕ} {bl : Bytes} {l l' : List Entry} {seam : ℕ → Prop}

theorem answers_append : answers tid bl (l ++ l') = answers tid bl l ++ answers tid bl l' :=
  map_append

theorem answers_cons (k : ℕ) (bh : BufferHead) :
    answers tid bl ((k, bh) :: l) = (k, bh.answered tid bl) :: answers tid bl l := rfl

theorem answers_of_not (h : ∀ e ∈ l, ¬e.2.WaitsFor tid) : answers tid bl l = l := by
  induction l with
  | nil => rfl
  | cons e l ih =>
    obtain ⟨he, hl⟩ := forall_mem_cons.mp h
    rw [answers_cons, answered_of_not he, ih hl]

theorem Shape.answers (h : Shape l) : Shape (answers tid bl l) := by
  refine ⟨?_, ?_⟩
  · intro e he
    obtain ⟨e, hmem, rfl⟩ := mem_map.mp he
    have hok := h.entry e hmem
    exact ⟨by simpa using hok.start, by simpa using hok.pos, by simpa using hok.waiters⟩
  · refine pairwise_map.mpr (h.ordered.imp ?_)
    intro e e' hle
    simpa using hle

theorem filled_answers (h : ∀ e ∈ l, e.2.Filled)
    (hlen : ∀ e ∈ l, e.2.WaitsFor tid → e.2.length ≤ bl.length) :
    ∀ e ∈ answers tid bl l, e.2.Filled := by
  intro e he
  obtain ⟨e, hmem, rfl⟩ := mem_map.mp he
  exact (h e hmem).answered (hlen e hmem)

theorem Merges.answers (h : Merges .clean seam l l') :
    Merges .clean seam (answers tid bl l) (answers tid bl l') := by
  induction h with
  | refl => exact Merges.refl _
  | @step pre post kl kr left right hm hstop hleft hright hseam ih =>
    have hjoined : (left.joined right).state ≠ .rx := by
      show left.state ≠ .rx
      simp [hleft]
    rw [answers_append, answers_cons, answers_cons,
      answered_of_state (by simp [hleft] : left.state ≠ .rx),
      answered_of_state (by simp [hright] : right.state ≠ .rx)] at ih
    rw [answers_append, answers_cons, answered_of_state hjoined]
    exact ih.step hstop hleft hright hseam

theorem Merges.mem_of_state {s} (h : Merges s seam l l') {e} (he : e ∈ l')
    (hs : e.2.state ≠ s) : e ∈ l := by
  induction h with
  | refl => exact he
  | @step pre post kl kr left right hm hstop hleft hright hseam ih =>
    apply ih
    simp only [mem_append, mem_cons] at he ⊢
    rcases he with he | rfl | he
    · exact .inl he
    · exact absurd hleft hs
    · exact .inr (.inr (.inr he))

theorem cells_answers_of_waits (hl : Shape l) {e} (he : e ∈ l) (hw : e.2.WaitsFor tid)
    {i : ℕ} (hi : i < e.2.length) : cells (answers tid bl l) (e.1 + i) = some (.clean bl[i]?) := by
  have hmem : (e.1, e.2.answered tid bl) ∈ answers tid bl l := mem_map.mpr ⟨e, he, rfl⟩
  have hshape : Shape (answers tid bl l) := hl.answers
  have hlook := look_of_mem (p := BufferHead.cell) hshape.ordered hmem
    (Nat.le_add_right e.1 i) (by simpa using hi)
  have hstart := (hl.entry e he).start
  rw [cells, hlook, answered_of_waits hw]
  simp [BufferHead.cell, hstart, hi]

theorem cells_answers_of_not {b : ℕ} (h : cells l b ≠ some (.rx tid)) :
    cells (answers tid bl l) b = cells l b := by
  induction l with
  | nil => rfl
  | cons e l ih =>
    unfold cells at h ih ⊢
    rw [look_cons] at h
    rw [answers_cons, look_cons, look_cons]
    simp only [answered_length]
    split_ifs at h ⊢ with hin
    · rw [answered_of_not]
      intro hw
      exact h (congrArg some (cell_eq_rx.mpr hw))
    · exact ih h

end Answers

namespace Focus

/-- The heads that wait for the read lie in its range, at or behind `opos`. -/
def Pending (rd : ReadFinish) (opos : ℕ) (l : List Entry) : Prop :=
  ∀ e ∈ l, e.2.WaitsFor rd.tid → opos ≤ e.1 ∧ e.1 + e.2.length ≤ rd.start + rd.length

variable {rest : Multiset Item} {f f' : Focus} {k opos : ℕ} {bh : BufferHead}
  {pre post : List Entry} {rd : ReadFinish} {bl : Bytes} {r : ℤ}

theorem Pending.done {l} (h : Pending rd opos l) (hl : Shape l)
    (hend : rd.start + rd.length ≤ opos ∨ ∀ e ∈ l, e.1 + e.2.length ≤ opos) :
    ∀ b, cells l b = cells (answers rd.tid bl l) b := by
  rw [answers_of_not]
  · exact fun _ => rfl
  intro e he hw
  have hin := h e he hw
  have hpos := (hl.entry e he).pos
  rcases hend with hend | hend
  · omega
  · have := hend e he
    omega

theorem Pending.move {pos : ℕ} (h : Pending rd opos (pre ++ (k, bh) :: post))
    (hl : Shape (pre ++ (k, bh) :: post)) (hpre : ∀ e ∈ pre, e.1 + e.2.length ≤ opos)
    (hpos : pos ≤ k ∨ pos ≤ k + bh.length ∧ ¬bh.WaitsFor rd.tid) :
    Pending rd pos (pre ++ (k, bh) :: post) := by
  intro e he hw
  have hin := h e he hw
  have hlen := (hl.entry e he).pos
  refine ⟨?_, hin.2⟩
  rcases mem_append.mp he with hmem | hmem
  · have := hpre e hmem
    omega
  · rcases mem_cons.mp hmem with rfl | hmem
    · rcases hpos with hpos | hpos
      · exact hpos
      · exact absurd hw hpos.2
    · have hle : k + bh.length ≤ e.1 := hl.le_post e hmem
      omega

theorem dataLowerBound_none (hf : f.Ok rest) (h : f.dataLowerBound opos = none) :
    ∀ e ∈ f.ob.data.entries, e.1 + e.2.length ≤ opos := by
  obtain ⟨pre, post, he, hpre, hpost⟩ :=
    exists_split hf.shape.ordered (fun e he => (hf.shape.entry e he).pos) opos
  rw [dataLowerBound_spec he (he ▸ hf.shape) hpre hpost] at h
  cases post with
  | nil => simpa [he] using hpre
  | cons e post => cases h

theorem clearWaiters_spec (hf : f.Ok rest) (he : f.ob.data.entries = pre ++ (k, bh) :: post) :
    ∃ g, f.clearWaiters k = .ok g ∧ g.Ok rest ∧
      g.ob.data.entries = pre ++ (k, { bh with waitforRead := ∅ }) :: post ∧
      (∀ b, cells (answers rd.tid bl g.ob.data.entries) b =
        cells (answers rd.tid bl f.ob.data.entries) b) ∧
      (Pending rd opos f.ob.data.entries → Pending rd opos g.ob.data.entries) := by
  have hrun : f.clearWaiters k = .ok (f.assign k { bh with waitforRead := ∅ }) := by
    rw [clearWaiters, deref_eq he]
    rfl
  have hge := assign_entries he { bh with waitforRead := ∅ }
  refine ⟨_, hrun, (clearWaiters_evolves hf hrun).ok, hge, ?_, ?_⟩
  · intro b
    rw [hge, he]
    simp only [answers_append, answers_cons]
    refine look_congr _ [(k, _)] [(k, _)] _ ?_
    simp only [look_cons, answered_length, cell_answered_waiters]
  · intro hpend e hmem
    rw [he] at hpend
    rw [hge] at hmem
    rcases mem_append.mp hmem with hmem | hmem
    · exact hpend e (by simp [hmem])
    · rcases mem_cons.mp hmem with rfl | hmem
      · exact hpend (k, bh) (by simp)
      · exact hpend e (by simp [hmem])

theorem finishBh_spec (hr : 0 ≤ r) (hbl : rd.length ≤ bl.length) (hf : f.Ok rest)
    (he : f.ob.data.entries = pre ++ (opos, bh) :: post) (hw : bh.WaitsFor rd.tid)
    (hpend : Pending rd opos f.ob.data.entries) (hstart : rd.start ≤ opos) :
    ∃ f', f.finishBh opos rd opos bl r = .ok f' ∧ f'.Ok rest ∧
      (∀ b, cells (answers rd.tid bl f'.ob.data.entries) b =
        cells (answers rd.tid bl f.ob.data.entries) b) ∧
      ∀ e ∈ f'.ob.data.entries, e.2.WaitsFor rd.tid → e ∈ pre ++ post := by
  have hshape : Shape (pre ++ (opos, bh) :: post) := he ▸ hf.shape
  have hok : EntryOk (opos, bh) := hshape.mid_ok
  have hkey : bh.start = opos := hok.start
  have hlen : ∀ e ∈ f.ob.data.entries, e.2.WaitsFor rd.tid → e.2.length ≤ bl.length := by
    intro e hmem hwe
    have := hpend e hmem hwe
    omega
  have hin : opos + bh.length ≤ rd.start + rd.length := (hpend (opos, bh) (by simp [he]) hw).2
  have hass : Becomes rest f (pre ++ (opos, { bh with bl := bl.take bh.length }) :: post) _ :=
    assign_spec hf.accounts he rfl
  obtain ⟨f1, hrun1, hb⟩ := bhSetState_spec hass.accounts hass.entries .clean
  have hans : BufferHead.withState { bh with bl := bl.take bh.length } .clean =
      bh.answered rd.tid bl := by
    rw [answered_of_waits hw]
    simp [BufferHead.withState, hw.1]
  have hstate : (bh.answered rd.tid bl).state = .clean := by rw [answered_of_waits hw]
  rw [hans] at hb
  have hok1 : f1.Ok rest := by
    refine (hf.replaced he (hass.trans hb) ⟨?_, ?_, ?_⟩ answered_length
      ((hf.fill he).answered fun hw => hlen (opos, bh) (by simp [he]) hw)).1
    · simpa using hkey
    · simpa using hok.pos
    · simpa using hok.waiters
  obtain ⟨f2, l, hrun2, hb2, hm⟩ :=
    tryMergeBh_spec hok1.accounts hb.entries (hb.entries ▸ hok1.shape)
  rw [hstate, ← hb.entries] at hm
  -- one head has its answer already, and the answer is the same later
  have hsame : answers rd.tid bl f1.ob.data.entries = answers rd.tid bl f.ob.data.entries := by
    rw [hb.entries, he]
    simp only [answers_append, answers_cons]
    rw [answered_of_state (by simp [hstate])]
  refine ⟨f2, ?_, ⟨hb2.accounts, ?_, ?_⟩, ?_, ?_⟩
  · have hne : r ≠ enoent := by
      intro heq
      rw [heq, enoent] at hr
      omega
    have hfillBh : f.fillBh opos bh opos bl r = .ok f1 := by
      rw [fillBh, if_neg (by omega), (by omega : opos - bh.start = 0),
        Bytes.substrOf_of_le (by omega), ok_bind, drop_zero]
      exact hrun1
    rw [finishBh, deref_eq he, ok_bind, assertThat_of hkey, ok_bind,
      assertThat_of (by omega), ok_bind, if_neg hne, hfillBh]
    exact hrun2
  · rw [hb2.entries]
    exact hm.shape hok1.shape
  · rw [hb2.entries]
    exact hm.filled hok1.filled
  · intro b
    have hm' : Merges .clean _ (answers rd.tid bl f1.ob.data.entries) (answers rd.tid bl l) :=
      hm.answers
    rw [hsame] at hm'
    rw [hb2.entries]
    exact hm'.cells_eq hf.shape.answers (filled_answers hf.filled hlen)
      (by simp) (by simp) (by simp) b
  · intro e hmem hwe
    rw [hb2.entries] at hmem
    have hold := hm.mem_of_state hmem (by simp [hwe.1])
    rw [hb.entries] at hold
    rcases mem_append.mp hold with hold | hold
    · exact mem_append_left _ hold
    · rcases mem_cons.mp hold with rfl | hold
      · exact absurd (hstate.symm.trans hwe.1) (by simp)
      · exact mem_append_right _ hold

section

variable (hr : 0 ≤ r) (hbl : rd.length ≤ bl.length) (fuel : ℕ) (hf : f.Ok rest)
  (hpend : Pending rd opos f.ob.data.entries) (hstart : rd.start ≤ opos)

include hr hbl fuel hf hpend hstart

theorem readFinishLoop_succ
    (hk : f.dataLowerBound opos = some k) (hend : ¬rd.start + rd.length ≤ opos) :
    ∃ g pos, readFinishLoop rd bl r (fuel + 1) f opos = readFinishLoop rd bl r fuel g pos ∧
      g.Ok rest ∧ opos < pos ∧ Pending rd pos g.ob.data.entries ∧
      ∀ b, cells (answers rd.tid bl g.ob.data.entries) b =
        cells (answers rd.tid bl f.ob.data.entries) b := by
  obtain ⟨pre, bh, post, he, hpre, hreach⟩ := dataLowerBound_cases hf hk
  obtain ⟨g, hg, hgok, hge, hcells, hpend'⟩ := clearWaiters_spec hf he
  have hshape := hge ▸ hgok.shape
  have hpend' := hge ▸ hpend' hpend
  have hkey : bh.start = k := hshape.mid_ok.start
  rw [readFinishLoop, hk]
  simp only
  rw [if_neg hend, hg, ok_bind, deref_eq hge, ok_bind]
  simp only [BufferHead.stop, hkey]
  split_ifs with hgap hstate htid
  · exact ⟨g, k, rfl, hgok, hgap, hge ▸ hpend'.move hshape hpre (.inl le_rfl), hcells⟩
  · exact ⟨g, _, rfl, hgok, hreach,
      hge ▸ hpend'.move hshape hpre (.inr ⟨le_rfl, fun hw => hstate hw.1⟩), hcells⟩
  · exact ⟨g, _, rfl, hgok, hreach,
      hge ▸ hpend'.move hshape hpre (.inr ⟨le_rfl, fun hw => htid hw.2⟩), hcells⟩
  · have hw : BufferHead.WaitsFor rd.tid { bh with waitforRead := ∅ } :=
      ⟨not_not.mp hstate, not_not.mp htid⟩
    have hin := hpend' (k, _) (mem_append_right _ mem_cons_self) hw
    obtain rfl : k = opos := le_antisymm (not_lt.mp hgap) hin.1
    obtain ⟨g', hg', hgok', hcells', hleft⟩ :=
      finishBh_spec hr hbl hgok hge hw (hge ▸ hpend') hstart
    rw [hg', ok_bind]
    refine ⟨g', _, rfl, hgok', hreach, ?_, fun b => (hcells' b).trans (hcells b)⟩
    intro e hmem hwe
    rcases mem_append.mp (hleft e hmem hwe) with hold | hold
    · have hin := hpend' e (mem_append_left _ hold) hwe
      have := hpre e hold
      have := (hshape.entry e (mem_append_left _ hold)).pos
      omega
    · exact ⟨hshape.le_post e hold, (hpend' e (mem_append_right _ (mem_cons_of_mem _ hold)) hwe).2⟩

theorem readFinishLoop_spec (hfuel : rd.start + rd.length ≤ opos + fuel) :
    ∃ f', readFinishLoop rd bl r fuel f opos = .ok f' ∧
      ∀ b, cells f'.ob.data.entries b = cells (answers rd.tid bl f.ob.data.entries) b := by
  induction fuel generalizing f opos with
  | zero => exact ⟨f, if_pos hfuel, hpend.done hf.shape (.inl hfuel)⟩
  | succ fuel ih =>
    cases hk : f.dataLowerBound opos with
    | none =>
      exact ⟨f, by rw [readFinishLoop, hk], hpend.done hf.shape (.inr (dataLowerBound_none hf hk))⟩
    | some k =>
      by_cases hend : rd.start + rd.length ≤ opos
      · exact ⟨f, by rw [readFinishLoop, hk]; exact if_pos hend, hpend.done hf.shape (.inl hend)⟩
      · obtain ⟨g, pos, hrun, hgok, hpos, hpend', hcells⟩ :=
          readFinishLoop_succ hr hbl fuel hf hpend hstart hk hend
        obtain ⟨f', hrun', hcells'⟩ := ih hgok hpend' (by omega) (by omega)
        exact ⟨f', hrun.trans hrun', fun b => (hcells' b).trans (hcells b)⟩

end

end Focus

namespace Cacher

def headsAt (c : Cacher) (key : Soid) : List Entry :=
  ((c.objects.find? key).map fun ob => ob.data.entries).getD []

/-- The reply has landed: the bytes that waited for it are clean with the byte that the reply has
for them, all others are as they were. -/
structure Lands (rd : ReadFinish) (reply : Bytes) (c c' : Cacher) : Prop where
  landed : ∀ b, rd.start ≤ b → b < rd.start + rd.length → c.cell rd.key b = some (.rx rd.tid) →
    c'.cell rd.key b = some (.clean reply[b - rd.start]?)
  kept : ∀ key b, ¬(key = rd.key ∧ c.cell key b = some (.rx rd.tid)) → c'.cell key b = c.cell key b

variable {c c' : Cacher} {key : Soid} {rd : ReadFinish} {bl : Bytes} {r : ℤ} {ops : List Op}

theorem headsAt_of_find? {ob} (h : c.objects.find? key = some ob) :
    c.headsAt key = ob.data.entries := by
  rw [headsAt, h]
  rfl

theorem headsAt_of_none (h : c.objects.find? key = none) : c.headsAt key = [] := by
  rw [headsAt, h]
  rfl

theorem cell_eq_cells (c : Cacher) (key : Soid) (b : ℕ) :
    c.cell key b = cells (c.headsAt key) b := by
  unfold cell headsAt
  cases c.objects.find? key <;> rfl

theorem Ok.shapeAt (hc : c.Ok) (key : Soid) : Shape (c.headsAt key) := by
  cases h : c.objects.find? key with
  | none =>
    rw [headsAt_of_none h]
    exact Shape.nil
  | some ob =>
    rw [headsAt_of_find? h]
    exact (hc.object _ (mem_of_find? h)).shape

theorem pending_of_sound (hc : c.Ok) (hs : c.view.Sound) (hrd : rd ∈ c.reads) :
    ∀ e ∈ c.headsAt rd.key, e.2.WaitsFor rd.tid →
      rd.start ≤ e.1 ∧ e.1 + e.2.length ≤ rd.start + rd.length := by
  intro e he hw
  have hshape := hc.shapeAt rd.key
  have hpos := (hshape.entry e he).pos
  have hrx : ∀ b, e.1 ≤ b → b < e.1 + e.2.length → c.cell rd.key b = some (.rx rd.tid) := by
    intro b hle hlt
    rw [cell_eq_cells, cells, look_of_mem hshape.ordered he hle hlt, cell_eq_rx.mpr hw]
  have hfirst := hs.inside rd hrd rd.key e.1 (hrx e.1 le_rfl (by omega))
  have hlast := hs.inside rd hrd rd.key (e.1 + e.2.length - 1) (hrx _ (by omega) (by omega))
  omega

theorem length_le_padReply (rd : ReadFinish) (bl : Bytes) (hr : 0 ≤ r) :
    rd.length ≤ (padReply rd bl r).length := by
  unfold padReply
  split_ifs with hshort
  · simp only [Bytes.zero, length_append, length_replicate]
    omega
  · omega

theorem bhReadFinish_spec (hc : c.Ok) (hs : c.view.Sound) (hrd : rd ∈ c.reads) (hr : 0 ≤ r)
    (bl : Bytes) : ∃ c', c.bhReadFinish rd bl r = .ok c' ∧
      (∀ b, c'.cell rd.key b = cells (answers rd.tid (padReply rd bl r) (c.headsAt rd.key)) b) ∧
      ∀ key, key ≠ rd.key → ∀ b, c'.cell key b = c.cell key b := by
  have hne : ¬(r = enoent) := by
    intro heq
    rw [heq, enoent] at hr
    omega
  unfold bhReadFinish ifCached
  cases hfind : c.objects.find? rd.key with
  | none =>
    have hcon : ¬c.objects.contains rd.key = true := by
      intro hcon
      obtain ⟨ob, hob⟩ := contains_iff.mp hcon
      simp [find?_of_mem hob] at hfind
    rw [if_neg hcon, ok_bind]
    refine ⟨_, rfl, ?_, fun _ _ _ => rfl⟩
    intro b
    refine (cell_eq_cells c rd.key b).trans ?_
    rw [headsAt_of_none hfind]
    rfl
  | some ob =>
    have hcon := contains_iff.mpr ⟨ob, mem_of_find? hfind⟩
    obtain ⟨pre, post, he⟩ := exists_split_of_find? hfind
    have hpend := pending_of_sound hc hs hrd
    rw [headsAt_of_find? hfind] at hpend ⊢
    obtain ⟨f', hrun, hcells⟩ := Focus.readFinishLoop_spec hr (length_le_padReply rd bl hr)
      rd.length (hc.focus he) hpend le_rfl le_rfl
    have hfin : Focus.readFinish ⟨c.books, ob⟩ rd (padReply rd bl r) r = .ok f' := by
      rw [Focus.readFinish, if_neg (fun h => hne h.1)]
      exact hrun
    rw [if_pos hcon, atObject_eq hfind hfin, ok_bind]
    refine ⟨_, rfl, ?_, ?_⟩
    · intro b
      exact (cell_put_self c rd.key f' b).trans (hcells b)
    · intro key hkey b
      exact cell_put_of_ne c f' hkey b

/-- The reply to a read lands in the right place exactly when the reply has, for each head that
still waits for it, the bytes with which it starts. -/
theorem bhReadFinish_lands_iff (hnew : c.New) (hops : ∀ op ∈ ops, op.Ok)
    (hrun : c.run ops = .ok c') (hrd : rd ∈ c'.reads) (hr : 0 ≤ r) :
    (∃ c'', c'.bhReadFinish rd bl r = .ok c'' ∧ Lands rd (padReply rd bl r) c' c'') ↔
      ∀ e ∈ c'.headsAt rd.key, e.2.WaitsFor rd.tid → ∀ i < e.2.length,
        (padReply rd bl r)[i]? = (padReply rd bl r)[e.1 - rd.start + i]? := by
  obtain ⟨⟨ls, href⟩, hs⟩ := run_refines hnew.ok hnew.sound hops hrun
  have hshape := href.ok.shapeAt rd.key
  have hpend := pending_of_sound href.ok hs hrd
  obtain ⟨d, hd, hcells, hother⟩ := bhReadFinish_spec href.ok hs hrd hr bl
  constructor
  · rintro ⟨d', hd', hlands⟩ e he hw i hi
    cases hd'.symm.trans hd
    have hin := hpend e he hw
    have hrx : c'.cell rd.key (e.1 + i) = some (.rx rd.tid) := by
      rw [cell_eq_cells, cells, look_of_mem hshape.ordered he (by omega) (by omega),
        cell_eq_rx.mpr hw]
    have hclean := hlands.landed (e.1 + i) (by omega) (by omega) hrx
    rw [hcells, cells_answers_of_waits hshape he hw hi, Option.some_inj, Cell.clean.injEq] at hclean
    rw [hclean]
    congr 1
    omega
  · intro halign
    refine ⟨d, hd, ?_, ?_⟩
    · intro b _ _ hrx
      rw [cell_eq_cells] at hrx
      obtain ⟨e, he, hle, hlt, hcell⟩ := exists_of_look hrx
      have hw := cell_eq_rx.mp hcell
      have hin := hpend e he hw
      obtain ⟨i, rfl⟩ := Nat.exists_eq_add_of_le hle
      have hi : i < e.2.length := by omega
      rw [hcells, cells_answers_of_waits hshape he hw hi, halign e he hw i hi]
      congr 3
      omega
    · intro key b hnot
      by_cases hkey : key = rd.key
      · subst hkey
        rw [hcells, cell_eq_cells]
        apply cells_answers_of_not
        rw [← cell_eq_cells]
        exact fun h => hnot ⟨rfl, h⟩
      · exact hother key hkey b

/-- A write takes the end of a read in flight: what is left of it starts where the read does. -/
theorem bhReadFinish_lands_iff_tailWritten :
    let oset : ObjectSet := ⟨0, 0, 0, false⟩
    let ex : ℕ → ℕ → ObjectExtent := fun off len => ⟨"1.00000000", 0, off, len, 0, 0, [(0, len)]⟩
    let c : Cacher := { maxSize := 16, maxObjects := 16 }
    let ops : List Op :=
      [.readx oset { id := 1, extents := [ex 0 4], snap := cephNosnap } true true,
        .writex oset ⟨[ex 3 1], ⟨1, [1]⟩, [9], false⟩ 0]
    let rd : ReadFinish :=
      { tid := 1, key := soid 0 "1.00000000" cephNosnap, start := 0, length := 4 }
    ∃ c', c.run ops = .ok c' ∧ rd ∈ c'.reads ∧
      ∃ c'', c'.bhReadFinish rd [1, 2, 3, 4] 4 = .ok c'' ∧
        Lands rd (padReply rd [1, 2, 3, 4] 4) c' c'' := by
  intro oset ex c ops rd
  have hok : (c.run ops).isOk = true := by decide +kernel
  have hrun := eq_ok_getD c hok
  have hrd : rd ∈ ((c.run ops).toOption.getD c).reads := by decide +kernel
  refine ⟨_, hrun, hrd,
    (bhReadFinish_lands_iff ⟨rfl, rfl, rfl, rfl, rfl⟩ ?_ hrun hrd (by decide)).mpr ?_⟩
  · simp only [ops, forall_mem_cons, Op.Ok, true_and, and_true, not_mem_nil,
      false_imp_iff, implies_true]
    constructor <;> decide
  · decide +kernel

/-- A write into the middle of a read in flight: the part behind it gets the bytes from the start
of the reply. -/
theorem bhReadFinish_splitRead_misplaced :
    let oset : ObjectSet := ⟨0, 0, 0, false⟩
    let ex : ℕ → ℕ → ObjectExtent := fun off len => ⟨"1.00000000", 0, off, len, 0, 0, [(0, len)]⟩
    let c : Cacher := { maxSize := 16, maxObjects := 16 }
    let ops : List Op :=
      [.readx oset { id := 1, extents := [ex 0 10], snap := cephNosnap } true true,
        .writex oset ⟨[ex 3 2], ⟨1, [1]⟩, [21, 22], false⟩ 0]
    let rd : ReadFinish :=
      { tid := 1, key := soid 0 "1.00000000" cephNosnap, start := 0, length := 10 }
    ∃ c' c'', c.run ops = .ok c' ∧ rd ∈ c'.reads ∧
      c'.bhReadFinish rd [1, 2, 3, 4, 5, 6, 7, 8, 9, 10] 10 = .ok c'' ∧
      c'.cell rd.key 5 = some (.rx rd.tid) ∧ c''.cell rd.key 5 = some (.clean (some 1)) := by
  intro oset ex c ops rd
  have hok : (c.run ops).isOk = true := by decide +kernel
  have hfin : (((c.run ops).toOption.getD c).bhReadFinish rd
      [1, 2, 3, 4, 5, 6, 7, 8, 9, 10] 10).isOk = true := by decide +kernel
  exact ⟨_, _, eq_ok_getD c hok, by decide +kernel, eq_ok_getD c hfin,
    by decide +kernel, by decide +kernel⟩

end Cacher

end CephDokan.ObjectCacher
