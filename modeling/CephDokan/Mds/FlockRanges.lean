import CephDokan.Mds.FlockRefinement

/-!
# The ranges of one owner

Locks of one owner are apart, and those of one owner and type do not adjoin: what adjoins a new
lock is among its neighbors, and what would adjoin a lock that it takes in adjoined that lock
before.
-/

namespace CephDokan.Mds

open List FileLock

def FileLock.Touches (l r : FileLock) : Prop := ∃ b, b ∈ l.bytes ∧ b + 1 ∈ r.bytes

theorem FileLock.adjoins_iff {l r : FileLock} (hno : ¬l.Overlaps r) :
    l.Adjoins r ↔ l.Touches r ∨ r.Touches l := by
  simp only [Touches, mem_bytes]
  unfold Overlaps at hno
  unfold Adjoins
  constructor
  · rintro (⟨hlen, heq⟩ | ⟨hlen, heq⟩)
    · exact .inl ⟨r.start - 1, by omega⟩
    · exact .inr ⟨l.start - 1, by omega⟩
  · rintro (⟨b, hl, hr⟩ | ⟨b, hr, hl⟩) <;> omega

namespace LockState

variable {s s0 s' : LockState} {e x : Held} {l new new' range : FileLock}
  {olds neighbors rest : List Held}

def Coalesced (s : LockState) : Prop :=
  ∀ e ∈ s.heldLocks, ∀ x ∈ s.heldLocks, e.lock.key = x.lock.key → e.lock.type = x.lock.type →
    e.lock.Touches x.lock → e = x

theorem Coalesced.eraseHeld (hc : s.Coalesced) (e : Held) : (s.eraseHeld e).Coalesced :=
  fun x hx y hy => hc x (mem_of_mem_filter hx) y (mem_of_mem_filter hy)

theorem Coalesced.cutOut (hc : s.Coalesced) (h : s.Wf) (he : e ∈ s.heldLocks)
    (hrange : range.InRange) (hover : e.lock.Overlaps range) :
    (s.cutOut (decide (range.length = 0)) e range).Coalesced := by
  have hcut := cutFrom h he hrange hover
  have hmem (x : Held) := mem_cutOut (x := x) h.ordered he hrange (h.range e he)
  rintro x hx y hy hkey htype ⟨b, hbx, hby⟩
  by_cases hxold : x ∈ s.heldLocks ∧ x ≠ e
  · rcases hcut.pieces y hy with ⟨hy', -⟩ | ⟨hky, hty, hsub⟩
    · exact hc x hxold.1 y hy' hkey htype ⟨b, hbx, hby⟩
    · have heq := hc x hxold.1 e he (hkey.trans hky) (htype.trans hty) ⟨b, hbx, (hsub _ hby).1⟩
      exact absurd heq hxold.2
  obtain ⟨hkx, htx, hsub⟩ := (hcut.pieces x hx).resolve_left hxold
  by_cases hyold : y ∈ s.heldLocks ∧ y ≠ e
  · have heq := hc e he y hyold.1 (hkx.symm.trans hkey) (htx.symm.trans htype)
      ⟨b, (hsub _ hbx).1, hby⟩
    exact absurd heq.symm hyold.2
  rcases ((hmem x).mp hx).resolve_left hxold with ⟨hltx, rfl⟩ | ⟨hcontx, rfl⟩ <;>
    rcases ((hmem y).mp hy).resolve_left hyold with ⟨hlty, rfl⟩ | ⟨hconty, rfl⟩
  · rfl
  · have := ((mem_bytes_front hover hltx).mp hbx).2
    have := ((mem_bytes_behind hover hconty).mp hby).2
    have := hconty.1
    omega
  · have := ((mem_bytes_behind hover hcontx).mp hbx).2
    have := ((mem_bytes_front hover hlty).mp hby).2
    omega
  · rfl

/-- The loops of `adjust_locks`: what touches the new lock is still to come. -/
structure Uniting (l : FileLock) (rest : List Held) (s : LockState) (new : FileLock) : Prop where
  coalesced : s.Coalesced
  apart : ∀ e ∈ s.heldLocks, e.lock.key = l.key → e.lock.type = l.type →
    e.lock.Touches new ∨ new.Touches e.lock → e ∈ rest

section

variable (hu : Uniting l (e :: rest) s new) (h : s.Wf) (he : e ∈ s.heldLocks)

include hu h he

theorem Uniting.absorb (hkey : e.lock.key = l.key) (htype : e.lock.type = l.type)
    (htouch : e.lock.Overlaps new ∨ e.lock.Adjoins new) :
    Uniting l rest (s.eraseHeld e) (hull new e.lock) := by
  have hbytes := mem_bytes_hull new e.lock htouch
  refine ⟨hu.coalesced.eraseHeld e, fun x hx hkx htx htouch => ?_⟩
  obtain ⟨hx, hne⟩ := (h.ordered.mem_eraseHeld he).mp hx
  have hapart : ¬(x.lock.Touches e.lock ∨ e.lock.Touches x.lock) := by
    rintro (ht | ht)
    · exact hne (hu.coalesced x hx e he (hkx.trans hkey.symm) (htx.trans htype.symm) ht)
    · exact hne (hu.coalesced e he x hx (hkey.trans hkx.symm) (htype.trans htx.symm) ht).symm
  refine (mem_cons.mp (hu.apart x hx hkx htx ?_)).resolve_left hne
  rcases htouch with ⟨b, hb, hb'⟩ | ⟨b, hb, hb'⟩
  · exact .inl ⟨b, hb, ((hbytes _).mp hb').resolve_right fun he => hapart (.inl ⟨b, hb, he⟩)⟩
  · exact .inr ⟨b, ((hbytes _).mp hb).resolve_right fun he => hapart (.inr ⟨b, he, hb'⟩), hb'⟩

theorem Uniting.giveWay (htype : e.lock.type ≠ l.type) (hrange : new.InRange)
    (hover : e.lock.Overlaps new) :
    Uniting l rest (s.cutOut (decide (new.length = 0)) e new) new := by
  refine ⟨hu.coalesced.cutOut h he hrange hover, fun x hx hkx htx htouch => ?_⟩
  rcases (cutFrom h he hrange hover).pieces x hx with ⟨hold, hne⟩ | ⟨-, hty, -⟩
  · exact (mem_cons.mp (hu.apart x hold hkx htx htouch)).resolve_left hne
  · exact absurd (hty.symm.trans htx) htype

end

theorem Uniting.adjustOlds (hu : Uniting l (olds ++ neighbors) s new)
    (ha : Adjusting s0 l olds neighbors s new) :
    Uniting l neighbors (olds.foldl (adjustOld (decide (l.length = 0))) (s, new)).1
      (olds.foldl (adjustOld (decide (l.length = 0))) (s, new)).2 := by
  induction olds generalizing s new with
  | nil => exact hu
  | cons e olds ih =>
    obtain ⟨he, hkey, hover⟩ := ha.old e mem_cons_self
    have hnext := ha.adjustOld
    rw [ha.adjustOld_eq] at hnext
    rw [foldl_cons, ha.adjustOld_eq]
    by_cases htype : e.lock.type = l.type
    · rw [if_pos htype] at hnext ⊢
      exact ih (hu.absorb ha.core.wf he hkey htype (.inl hover)) hnext
    · rw [if_neg htype] at hnext ⊢
      exact ih (hu.giveWay ha.core.wf he htype ha.core.range hover) hnext

theorem Uniting.adjustNeighbors (hu : Uniting l neighbors s new)
    (ha : Adjusting s0 l [] neighbors s new)
    (hrun : neighbors.foldlM adjustNeighbor (s, new) = .ok (s', new')) : Uniting l [] s' new' := by
  induction neighbors generalizing s new with
  | nil =>
    cases hrun
    exact hu
  | cons e neighbors ih =>
    obtain ⟨he, hkey, hadj⟩ := ha.neighbor e mem_cons_self
    rw [foldlM_cons, ha.adjustNeighbor_eq, Fallible.ok_bind] at hrun
    by_cases htype : e.lock.type = l.type
    · rw [if_pos htype] at hrun
      exact ih (hu.absorb ha.core.wf he hkey htype (.inr hadj)) (ha.merge htype) hrun
    · rw [if_neg htype] at hrun
      refine ih ⟨hu.coalesced, fun x hx hkx htx htouch => ?_⟩ ha.pass hrun
      refine (mem_cons.mp (hu.apart x hx hkx htx htouch)).resolve_left ?_
      rintro rfl
      exact htype htx

theorem Uniting.insertHeld (hu : Uniting l [] s new) (hkey : new.key = l.key)
    (htype : new.type = l.type) : (s.insertHeld new).Coalesced := by
  intro x hx y hy hkxy htxy htouch
  rcases mem_insertHeld.mp hx with rfl | hx
  · rcases mem_insertHeld.mp hy with rfl | hy
    · rfl
    · cases hu.apart y hy (hkxy.symm.trans hkey) (htxy.symm.trans htype) (.inr htouch)
  · rcases mem_insertHeld.mp hy with rfl | hy
    · cases hu.apart x hx (hkxy.trans hkey) (htxy.trans htype) (.inl htouch)
    · exact hu.coalesced x hx y hy hkxy htxy htouch

theorem Coalesced.addLock (hc : s.Coalesced) (h : s.Wf) (hm : Mergeable s l)
    {waitOnFail replay r : Bool} (hrun : s.addLock l waitOnFail replay = .ok (s', r)) :
    s'.Coalesced := by
  rw [addLock_eq] at hrun
  by_cases hobs : s.blocked l
  · rw [if_pos hobs] at hrun
    cases hrun
    split_ifs <;> exact hc
  rw [if_neg hobs] at hrun
  rw [blocked_iff h hm.range] at hobs
  have hinit := adjusting_init h hm hobs
  have hu : Uniting l (((s.getOverlappingLocks l).1.filter fun e => ownerEqual e.lock l) ++
      (s.getOverlappingLocks l).2) (s.removeWaiting l) l := by
    refine ⟨by simpa [Coalesced] using hc, fun x hx hkx htx htouch => mem_append.mpr ?_⟩
    by_cases hover : x.lock.Overlaps l
    · exact .inl (hinit.own x hx hkx hover)
    · rw [removeWaiting_heldLocks] at hx
      exact .inr ((mem_getOverlappingLocks_snd h hm.range).mpr
        ⟨hx, hkx, (adjoins_iff hover).mpr htouch⟩)
  obtain ⟨⟨s2, new2⟩, hloop, hdone⟩ := Fallible.bind_eq_ok.mp hrun
  cases hdone
  obtain ⟨s3, new3, hloop', hend⟩ := hinit.adjustOlds.adjustNeighbors
  cases hloop.symm.trans hloop'
  exact ((hu.adjustOlds hinit).adjustNeighbors hinit.adjustOlds hloop).insertHeld hend.core.key
    hend.core.type

theorem Coalesced.removeLock (hc : s.Coalesced) (h : Removing s0 l rest s) (hl : l.InRange) :
    (rest.foldl (fun s e => s.cutOut (decide (l.length = 0)) e l) s).Coalesced := by
  induction rest generalizing s with
  | nil => exact hc
  | cons e rest ih =>
    obtain ⟨he, -, hover⟩ := h.mem e mem_cons_self
    exact ih (hc.cutOut h.wf he hl hover) (h.step hl)

theorem Coalesced.meetingStep {op : Op} (hc : s.Coalesced) (h : s.Wf)
    (hstep : MeetingStep op s s') : s'.Coalesced := by
  obtain ⟨hop, r, hrun⟩ := hstep
  cases op with
  | add l waitOnFail replay => exact hc.addLock h hop hrun
  | remove l =>
    cases hrun
    exact hc.removeLock (removing_init h hop) hop

/-- After every run whose requests meet the condition, the locks of one owner are apart, no two
of one owner and type adjoin, and no assertion fails on a request that meets it. -/
theorem heldLocks_apart (ops : List Op) (s : LockState) (hrun : Trace MeetingStep empty ops s) :
    (∀ e ∈ s.heldLocks, ∀ x ∈ s.heldLocks, e ≠ x → e.lock.key = x.lock.key →
      ¬e.lock.Overlaps x.lock ∧ (e.lock.type = x.lock.type → ¬e.lock.Adjoins x.lock)) ∧
    ∀ op, Meets s op → ∃ s' r, step s op = .ok (s', r) := by
  obtain ⟨h, hc⟩ : s.Wf ∧ s.Coalesced := by
    refine hrun.invariant (P := fun s => s.Wf ∧ s.Coalesced) ?_
      ⟨wf_empty, by simp [Coalesced, empty]⟩
    rintro op - s s' hstep ⟨h, hc⟩
    exact ⟨h.meetingStep hstep, hc.meetingStep h hstep⟩
  refine ⟨fun e he x hx hne hkey => ?_, fun op hop => ?_⟩
  · have hno := h.not_overlaps he hx hne hkey
    refine ⟨hno, fun htype hadj => ?_⟩
    rcases (adjoins_iff hno).mp hadj with htouch | htouch
    · exact hne (hc e he x hx hkey htype htouch)
    · exact hne (hc x hx e he hkey.symm htype.symm htouch).symm
  · obtain ⟨-, s', r, hrun, -⟩ := h.step hop
    exact ⟨s', r, hrun⟩

/-- A second lock is merged with the first. -/
theorem heldLocks_apart_merged :
    ∃ s, step empty (.add (sampleLock 0 10 1 .shared) false false) = .ok (s, true) ∧
      ∃ s' r, step s (.add (sampleLock 10 5 1 .shared) false false) = .ok (s', r) := by
  have hmeets : Meets empty (.add (sampleLock 0 10 1 .shared) false false) :=
    ⟨by simp [InRange, sampleLock], by simp [empty]⟩
  refine ⟨_, rfl, (heldLocks_apart _ _ (Trace.single ⟨hmeets, true, rfl⟩)).2 _ ?_⟩
  refine ⟨by simp [InRange, sampleLock], fun e he _ hover => ?_⟩
  rcases mem_insertHeld.mp he with rfl | he
  · exact absurd hover (by decide)
  · cases he

/-- Two shared locks on the same 4 GiB become one without end, over an exclusive lock of the same
owner; and the assertion fails where a lock that is merged adjoins one behind it. -/
theorem heldLocks_overlap :
    ((do
      let (s, _) ← empty.addLock (sampleLock (2 ^ 40) 1 1 .excl) false false
      let (s, _) ← s.addLock (sampleLock 0 (2 ^ 32) 1 .shared) false false
      let (s, _) ← s.addLock (sampleLock 0 (2 ^ 32) 1 .shared) false false
      return s.heldLocks.map Held.lock) : Run (List FileLock)) =
      .ok [sampleLock 0 0 1 .shared, sampleLock (2 ^ 40) 1 1 .excl] ∧
    ((do
      let (s, _) ← empty.addLock (sampleLock 5 5 1 .shared) false false
      let (s, _) ← s.addLock (sampleLock (2 ^ 32) 5 1 .shared) false false
      let (_, r) ← s.addLock (sampleLock 0 (2 ^ 32) 1 .shared) false false
      return r) : Run Bool) = .error .assertion := by
  constructor <;> decide +kernel

end LockState

end CephDokan.Mds
