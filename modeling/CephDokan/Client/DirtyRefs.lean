import CephDokan.Client.Write
import CephDokan.Osdc.ObjectCacher.DirtyCount

/-!
# The references of dirty data

A buffered write that finds `dirty_or_tx` of the inode at zero takes a reference on
`FILE_CACHE` and `FILE_BUFFER`, and the object cacher has it dropped through
`flush_set_callback` when a commit, a discard or a purge brings the count back to zero. The
count is an `int`: with two gigabytes of dirty data or more its sign and its zero say nothing
about the data.
-/

namespace CephDokan.Client

open Fallible ObjectCacher Function Cacher

/-! ### References -/

namespace Refs

variable {r : Refs} {c : Cap}

def Pinned (r : Refs) : Prop :=
  (if r.caps .cache = 0 then 0 else 1) + (if r.caps .buffer = 0 then 0 else 1) ≤ r.inode

@[simp] theorem getCapRef_caps (c' : Cap) :
    (r.getCapRef c).caps c' = r.caps c' + if c' = c then 1 else 0 := by
  by_cases h : c' = c
  · subst h
    simp [getCapRef]
  · simp [getCapRef, h]

theorem pinned_iff : r.Pinned ↔ min (r.caps .cache) 1 + min (r.caps .buffer) 1 ≤ r.inode := by
  unfold Pinned
  split_ifs <;> omega

theorem Pinned.getCapRef (h : r.Pinned) (c : Cap) : (r.getCapRef c).Pinned := by
  rw [pinned_iff] at h ⊢
  simp only [getCapRef_caps]
  unfold Refs.getCapRef
  cases c with
  | wr => simpa using h
  | buffer | cache =>
    simp only [ne_eq, reduceCtorEq, not_false_eq_true, true_and, if_true, if_false]
    split_ifs <;> omega

theorem Pinned.putCapRef (h : r.Pinned) (hpos : 0 < r.caps c) :
    ∃ r', r.putCapRef c = .ok r' ∧ r'.Pinned ∧
      ∀ c', r'.caps c' = r.caps c' - if c' = c then 1 else 0 := by
  have hcaps : ∀ c', (update r.caps c (r.caps c - 1)) c' = r.caps c' - if c' = c then 1 else 0 := by
    intro c'
    by_cases hc : c' = c
    · subst hc
      simp
    · simp [hc]
  rw [pinned_iff] at h
  simp only [pinned_iff]
  unfold Refs.putCapRef
  rw [assertThat_of hpos, ok_bind]
  by_cases hlast : c ≠ .wr ∧ r.caps c = 1
  · -- the last reference lets the inode go
    rw [if_pos hlast]
    have hinode : 0 < r.inode := by cases c <;> simp at hlast <;> omega
    unfold putInode
    rw [assertThat_of hinode, ok_bind]
    refine ⟨_, rfl, ?_, hcaps⟩
    cases c <;> simp at hlast ⊢ <;> omega
  · rw [if_neg hlast]
    refine ⟨_, rfl, ?_, hcaps⟩
    cases c <;> simp at hlast ⊢ <;> omega

end Refs

/-! ### The inode and its object set -/

/-- A write through the object cacher, as `_write` hands it to `file_write`. -/
structure BufferedWrite where
  layout : FileLayout
  valid : cephFileLayoutIsValid layout = true
  truncSize : ℕ
  offset : ℕ
  offset_lt : offset < 2 ^ 63
  data : Bytes
  data_lt : data.length < 2 ^ 32
  snapc : SnapContext
  now : ℕ

inductive SetOp
  | flushBh (key : Soid) (k cutoff : ℕ)
  | flushSet (ctx : ℕ)
  | flushSetExtents (exv : List ObjectExtent) (ctx : ℕ)
  | writeCommit (tid : ℕ) (r : ℤ)
  | trimBh (key : Soid) (k : ℕ)
  | trimObject (key : Soid)
  | releaseSet
  | discardSet (exls : List ObjectExtent)
  | purgeSet

def SetOp.op (oset : ObjectSet) : SetOp → Op
  | flushBh key k cutoff => .flushBh key k cutoff
  | flushSet ctx => .flushSet oset ctx
  | flushSetExtents exv ctx => .flushSetExtents oset exv ctx
  | writeCommit tid r => .writeCommit tid r
  | trimBh key k => .trimBh key k
  | trimObject key => .trimObject key
  | releaseSet => .releaseSet oset
  | discardSet exls => .discardSet oset exls
  | purgeSet => .purgeSet oset

/-- What can happen to an inode with buffered data. `hold` and `drop` are the references that a
call takes for itself and gives back; `drop .buffer` is also the end of a buffered write, which
may have waited for writeback. -/
inductive BufferedEvent
  | write (w : BufferedWrite)
  | hold (c : Cap)
  | drop (c : Cap)
  | cacher (op : SetOp)

/-- An inode and the object cacher. `held` counts the references that calls hold for
themselves. -/
structure BufferedInode where
  ino : ℕ
  oset : ObjectSet
  cache : Cacher
  refs : Refs
  held : Cap → ℕ

namespace BufferedInode

variable (s : BufferedInode)

def dirtyTotal : ℤ := s.cache.books.osetDirtyOrTx s.oset.id

/-- `in->oset.dirty_or_tx`, an `int` -/
def dirtyOrTx : ℤ := s.dirtyTotal.bmod (2 ^ 32)

/-- `file_write` up to the point where it waits for writeback -/
def fileWrite (w : BufferedWrite) : Run Cacher := do
  let exs ← Striper.fileToExtents s.ino w.layout w.offset w.data.length w.truncSize
  s.cache.writex s.oset ⟨exs, w.snapc, w.data, false⟩ w.now

def hold (c : Cap) : BufferedInode :=
  { s with
    refs := s.refs.getCapRef c
    held := update s.held c (s.held c + 1) }

/-- The references of dirty data: a buffered write takes them if it finds none. -/
def holdDirty : BufferedInode :=
  if s.dirtyOrTx = 0 then { s with refs := (s.refs.getCapRef .buffer).getCapRef .cache } else s

/-- What an event does before `flush_set_callback` is called. -/
def act : BufferedEvent → Run BufferedInode
  | .write w => do
    let cache ← s.fileWrite w
    return { s.holdDirty.hold .buffer with cache := cache }
  | .hold c => .ok (s.hold c)
  | .drop c => do
    assertThat (0 < s.held c)
    let refs ← s.refs.putCapRef c
    return { s with refs := refs, held := update s.held c (s.held c - 1) }
  | .cacher op => do
    let cache ← s.cache.step (op.op s.oset)
    return { s with cache := cache }

/-- Whether an operation calls `flush_set_callback`, by the states before it and after. -/
def callsBack (s t : BufferedInode) : SetOp → Bool
  | .writeCommit tid _ =>
    match s.cache.writes.find? fun w => w.tid = tid with
    | some w => s.cache.objects.contains w.key && 0 < s.dirtyOrTx && t.dirtyOrTx = 0
    | none => false
  | .purgeSet => s.cache.objectsOf s.oset ≠ [] && 0 < s.dirtyOrTx
  | .discardSet _ => s.cache.objectsOf s.oset ≠ [] && 0 < s.dirtyOrTx && t.dirtyOrTx = 0
  | _ => false

/-- `_flushed` -/
def flushed : Run BufferedInode := do
  let refs ← Commit.flushed.release s.refs
  return { s with refs := refs }

/-- The state after an event, and whether the event has called `flush_set_callback`. -/
def step (e : BufferedEvent) : Run (BufferedInode × Bool) := do
  let t ← s.act e
  match e with
  | .cacher op =>
    if s.callsBack t op then do
      let t ← t.flushed
      return (t, true)
    else return (t, false)
  | _ => return (t, false)

/-- A client that has just started: the references are those of the calls. -/
structure New (s : BufferedInode) : Prop where
  cache : s.cache.New
  caps : ∀ c, c ≠ .wr → s.refs.caps c = s.held c
  pinned : s.refs.Pinned

def Steps (e : BufferedEvent) (s t : BufferedInode) : Prop := ∃ called, s.step e = .ok (t, called)

/-- A step after which less than two gigabytes are dirty or on their way. -/
def SmallSteps (e : BufferedEvent) (s t : BufferedInode) : Prop :=
  Steps e s t ∧ t.dirtyTotal < 2 ^ 31

end BufferedInode

/-! ### What the operations do to the count -/

/-- An operation that may take bytes off the count. -/
def SetOp.Saves : SetOp → Prop
  | writeCommit _ _ | discardSet _ | purgeSet => True
  | _ => False

section Count

variable {c c' : Cacher} {oset : ObjectSet} {op : SetOp}

theorem SetOp.op_ok (op : SetOp) (oset : ObjectSet) : (op.op oset).Ok := by
  cases op <;> trivial

theorem SetOp.sole (h : c.Sole oset.id) (hc : c.Ok) (hrun : c.step (op.op oset) = .ok c') :
    c'.Sole oset.id := by
  cases op with
  | flushBh key k cutoff =>
    exact h.flush hc (show Op.Flushes (.flushBh key k cutoff) from trivial) hrun
  | flushSet ctx => exact h.flush hc (show Op.Flushes (.flushSet oset ctx) from trivial) hrun
  | flushSetExtents exv ctx =>
    exact h.flush hc (show Op.Flushes (.flushSetExtents oset exv ctx) from trivial) hrun
  | writeCommit tid r =>
    simp only [SetOp.op, Cacher.step] at hrun
    split at hrun
    · exact h.bhWriteCommit hc hrun
    · cases hrun
      exact h
  | trimBh key k => exact h.trimBh hc hrun
  | trimObject key => exact h.trimObject hrun
  | releaseSet => exact h.releaseSet hc hrun
  | discardSet exls => exact h.discardSet hc hrun
  | purgeSet => exact h.purgeSet hc hrun

theorem SetOp.takes_spec {l} (h : (op.op oset).Takes l) : ¬l.Writes ∧ (l.Counts → op.Saves) := by
  cases op with
  | flushBh key k cutoff | flushSet ctx | flushSetExtents exv ctx =>
    cases l <;> first | exact ⟨id, id⟩ | exact absurd h id
  | writeCommit tid r =>
    obtain ⟨w, copied, -, rfl⟩ := h
    exact ⟨id, id⟩
  | trimBh key k | trimObject key =>
    cases h
    exact ⟨id, id⟩
  | releaseSet =>
    obtain ⟨key, rfl | rfl⟩ := h <;> exact ⟨id, id⟩
  | discardSet exls | purgeSet =>
    obtain ⟨key, rfl⟩ := h
    exact ⟨id, id⟩

/-- What an operation leaves: the cache in order, and no byte that was not dirty before. -/
structure SetOp.Kept (oset : ObjectSet) (c c' : Cacher) : Prop where
  ok : c'.Ok
  sound : c'.view.Sound
  sole : c'.Sole oset.id
  nonneg : 0 ≤ c'.books.osetDirtyOrTx oset.id
  le : c'.books.osetDirtyOrTx oset.id ≤ c.books.osetDirtyOrTx oset.id

theorem SetOp.kept (hc : c.Ok) (hs : c.view.Sound) (hsole : c.Sole oset.id)
    (hrun : c.step (op.op oset) = .ok c') : Kept oset c c' := by
  obtain ⟨ls, href, htakes⟩ := step_refines hc hs (op.op_ok oset) hrun
  have hsole' := SetOp.sole hsole hc hrun
  obtain ⟨hfin, hcount⟩ := hc.osetDirtyOrTx_eq hsole
  obtain ⟨-, hcount'⟩ := href.ok.osetDirtyOrTx_eq hsole'
  have hsub := href.unsavedCells_subset fun l hl => (SetOp.takes_spec (htakes l hl)).1
  refine ⟨href.ok, href.sound hs, hsole', by omega, ?_⟩
  rw [hcount, hcount']
  exact_mod_cast Set.ncard_le_ncard hsub hfin

theorem SetOp.count_eq (hop : ¬op.Saves) (hc : c.Ok) (hs : c.view.Sound) (hsole : c.Sole oset.id)
    (hrun : c.step (op.op oset) = .ok c') :
    c'.books.osetDirtyOrTx oset.id = c.books.osetDirtyOrTx oset.id := by
  obtain ⟨ls, href, htakes⟩ := step_refines hc hs (op.op_ok oset) hrun
  have hsole' := SetOp.sole hsole hc hrun
  rw [(hc.osetDirtyOrTx_eq hsole).2, (href.ok.osetDirtyOrTx_eq hsole').2,
    href.unsavedCells_eq fun l hl => mt (SetOp.takes_spec (htakes l hl)).2 hop]

theorem purgeSet_idle (hc : c.Ok) (hrun : c.purgeSet oset = .ok c') :
    c'.books.osetDirtyOrTx oset.id = 0 := by
  have hok' := (purgeSet_refines hc hrun).ok
  obtain ⟨c1, -, hrun⟩ := bind_eq_ok.mp hrun
  obtain ⟨_, hassert, hrun⟩ := bind_eq_ok.mp hrun
  cases hrun
  by_cases hempty : c'.objectsOf oset = []
  · exact idle_of_empty hok' hempty
  · exact assertThat_eq_ok.mp hassert hempty

theorem bhWriteCommit_gone {w} {r} (hgone : c.objects.contains w.key = false)
    (hrun : c.bhWriteCommit w r = .ok c') : c'.books = c.books := by
  obtain ⟨c1, hcached, hrun⟩ := bind_eq_ok.mp hrun
  cases hrun
  rw [Cacher.ifCached, if_neg (by simp [hgone])] at hcached
  cases hcached
  rfl

end Count

namespace BufferedInode

variable {s t u : BufferedInode} {e : BufferedEvent}

theorem dirtyOrTx_of_small (hnonneg : 0 ≤ s.dirtyTotal) (hsmall : s.dirtyTotal < 2 ^ 31) :
    s.dirtyOrTx = s.dirtyTotal := by
  unfold dirtyOrTx
  rw [Int.bmod_def]
  omega

/-- The cache is in order and has only objects of the inode. -/
structure Tidy (s : BufferedInode) : Prop where
  ok : s.cache.Ok
  sound : s.cache.view.Sound
  sole : s.cache.Sole s.oset.id

/-- The references on the cache and on the buffer are those of the calls, and one for dirty
data. -/
structure Balanced (s : BufferedInode) : Prop extends s.Tidy where
  pinned : s.refs.Pinned
  caps : ∀ c, c ≠ .wr → s.refs.caps c = s.held c + if 0 < s.dirtyTotal then 1 else 0

theorem Tidy.nonneg (h : s.Tidy) : 0 ≤ s.dirtyTotal := by
  have hcount := (h.ok.osetDirtyOrTx_eq h.sole).2
  unfold dirtyTotal
  omega

theorem New.tidy (h : s.New) : s.Tidy := by
  refine ⟨h.cache.ok, h.cache.sound, ?_⟩
  intro key ob hfind
  rw [h.cache.objects] at hfind
  cases hfind

theorem New.balanced (h : s.New) : s.Balanced ∧ s.dirtyTotal = 0 := by
  have hzero : s.dirtyTotal = 0 := by
    rw [dirtyTotal, h.cache.books]
  refine ⟨⟨h.tidy, h.pinned, ?_⟩, hzero⟩
  intro c hc
  rw [h.caps c hc, hzero]
  rfl

theorem callsBack_eq {op} {cache} (h : s.Balanced) (hsmall : s.dirtyTotal < 2 ^ 31)
    (hrun : s.cache.step (op.op s.oset) = .ok cache) : s.callsBack { s with cache } op =
      decide (0 < s.dirtyTotal ∧ dirtyTotal { s with cache } = 0) := by
  obtain ⟨t, ht⟩ : ∃ t, t = { s with cache } := ⟨_, rfl⟩
  have htotal : t.dirtyTotal = cache.books.osetDirtyOrTx s.oset.id := by rw [ht, dirtyTotal]
  rw [← ht]
  have hkept := SetOp.kept h.ok h.sound h.sole hrun
  have hs := dirtyOrTx_of_small h.nonneg hsmall
  have ht := dirtyOrTx_of_small (htotal ▸ hkept.nonneg) (htotal ▸ hkept.le.trans_lt hsmall)
  have hidle : s.cache.objectsOf s.oset = [] → s.dirtyTotal = 0 := idle_of_empty h.ok
  -- without a change of the count there is no call
  have hsame : cache.books.osetDirtyOrTx s.oset.id = s.dirtyTotal →
      decide (0 < s.dirtyTotal ∧ t.dirtyTotal = 0) = false := by
    intro heq
    rw [decide_eq_false_iff_not]
    omega
  cases op with
  | writeCommit tid r =>
    simp only [SetOp.op, Cacher.step] at hrun
    simp only [callsBack, hs, ht]
    cases hw : s.cache.writes.find? fun w => w.tid = tid with
    | none =>
      rw [hw] at hrun
      cases hrun
      exact (hsame rfl).symm
    | some w =>
      rw [hw] at hrun
      by_cases hgone : s.cache.objects.contains w.key = true
      · simp [hgone]
      · have hbooks := bhWriteCommit_gone (by simpa using hgone) hrun
        rw [hsame (by rw [hbooks, dirtyTotal])]
        simp [hgone]
  | discardSet exls =>
    simp only [callsBack, hs, ht]
    by_cases hempty : s.cache.objectsOf s.oset = []
    · simp [hempty, hidle hempty]
    · simp [hempty]
  | purgeSet =>
    have hzero : t.dirtyTotal = 0 := htotal.trans (purgeSet_idle h.ok hrun)
    simp only [callsBack, hs, hzero]
    by_cases hempty : s.cache.objectsOf s.oset = []
    · simp [hempty, hidle hempty]
    · simp [hempty]
  | _ => exact (hsame (SetOp.count_eq id h.ok h.sound h.sole hrun)).symm

theorem flushed_spec (hpinned : s.refs.Pinned)
    (hcaps : ∀ c, c ≠ .wr → s.refs.caps c = s.held c + 1) :
    ∃ refs, s.flushed = .ok { s with refs } ∧ refs.Pinned ∧
      ∀ c, c ≠ .wr → refs.caps c = s.held c := by
  have hcache := hcaps .cache (by decide)
  have hbuffer := hcaps .buffer (by decide)
  obtain ⟨r1, hput1, hpinned1, hcaps1⟩ := hpinned.putCapRef (c := .cache) (by omega)
  have hbuffer1 : r1.caps .buffer = s.refs.caps .buffer := by simp [hcaps1]
  obtain ⟨r2, hput2, hpinned2, hcaps2⟩ := hpinned1.putCapRef (c := .buffer) (by omega)
  refine ⟨r2, ?_, hpinned2, ?_⟩
  · simp only [flushed, Commit.release, hput1, ok_bind, hput2]
    rfl
  · intro c hc
    simp only [hcaps2, hcaps1]
    cases c with
    | wr => exact absurd rfl hc
    | buffer => simp [hbuffer]
    | cache => simp [hcache]

variable {w : BufferedWrite}

theorem fileWrite_spec {cache} (h : s.Tidy) (hrun : s.fileWrite w = .ok cache) :
    cache.Ok ∧ cache.view.Sound ∧ cache.Sole s.oset.id ∧
      cache.view.unsavedCells = s.cache.view.unsavedCells ∪
        Cacher.fileCell w.layout s.ino '' Set.Ico w.offset (w.offset + w.data.length) ∧
      0 < w.data.length := by
  have hoff := w.offset_lt
  have hdata := w.data_lt
  obtain ⟨exs, hexs, hrun⟩ := bind_eq_ok.mp hrun
  have hpos : 0 < w.data.length := by
    obtain ⟨_, hassert, -⟩ := bind_eq_ok.mp hexs
    exact assertThat_eq_ok.mp hassert
  obtain ⟨exs', hexs', hexts⟩ := Striper.fileToExtents_spec w.valid s.ino w.truncSize hpos
    (by omega : w.offset + w.data.length < 2 ^ 64)
  cases hexs.symm.trans hexs'
  have hwr := osdWrite_ok w.valid s.ino w.truncSize hdata hexts w.snapc false
  have href := writex_refines h.ok hwr hrun
  refine ⟨href.ok, href.sound h.sound, h.sole.writex h.ok hwr hrun, ?_, hpos⟩
  rw [writex_unsavedCells h.ok hwr hrun, writtenCells_file w.valid hexts]

theorem hold_caps (c c' : Cap) (n : ℕ) (h : s.refs.caps c' = s.held c' + n) :
    (s.hold c).refs.caps c' = (s.hold c).held c' + n := by
  simp only [hold, Refs.getCapRef_caps]
  by_cases hc : c' = c
  · subst hc
    simp only [update_self, if_true]
    omega
  · simp [hc, h]

theorem act_write_balanced (h : s.Balanced) (hsmall : s.dirtyTotal < 2 ^ 31)
    (hrun : s.act (.write w) = .ok t) : t.Balanced ∧ 0 < t.dirtyTotal := by
  obtain ⟨cache, hwrite, hrun⟩ := bind_eq_ok.mp hrun
  cases hrun
  obtain ⟨hok, hsound, hsole, hcells, hpos⟩ := fileWrite_spec h.toTidy hwrite
  have hoset : s.holdDirty.oset = s.oset := by
    unfold holdDirty
    split_ifs <;> rfl
  obtain ⟨hfin, hcount⟩ := hok.osetDirtyOrTx_eq hsole
  have hdirty : 0 < cache.books.osetDirtyOrTx s.oset.id := by
    rw [hcount]
    have hmem : Cacher.fileCell w.layout s.ino w.offset ∈ cache.view.unsavedCells := by
      rw [hcells]
      exact .inr ⟨w.offset, ⟨le_rfl, by omega⟩, rfl⟩
    exact_mod_cast (Set.ncard_pos hfin).mpr ⟨_, hmem⟩
  have htotal :
      0 < ({ s.holdDirty.hold .buffer with cache := cache } : BufferedInode).dirtyTotal := by
    simp only [hold, hoset]
    exact hdirty
  refine ⟨⟨⟨hok, hsound, ?_⟩, ?_, ?_⟩, htotal⟩
  · simpa only [hold, hoset] using hsole
  · refine Refs.Pinned.getCapRef ?_ .buffer
    unfold holdDirty
    split_ifs
    · exact (h.pinned.getCapRef _).getCapRef _
    · exact h.pinned
  · intro c hc
    rw [if_pos htotal]
    refine hold_caps (s := s.holdDirty) .buffer c 1 ?_
    have hcaps := h.caps c hc
    have hint := dirtyOrTx_of_small h.nonneg hsmall
    have hnonneg := h.nonneg
    unfold holdDirty
    by_cases hzero : s.dirtyTotal = 0
    · rw [if_neg (by omega)] at hcaps
      rw [if_pos (hint.trans hzero)]
      cases c with
      | wr => exact absurd rfl hc
      | buffer => simp [hcaps]
      | cache => simp [hcaps]
    · rw [if_pos (by omega)] at hcaps
      rw [if_neg (by omega)]
      exact hcaps

theorem step_cacher {op} (hact : s.act (.cacher op) = .ok t) :
    s.step (.cacher op) = if s.callsBack t op then (do
      let t ← t.flushed
      return (t, true)) else .ok (t, false) := by
  simp only [step, hact, ok_bind]
  rfl

theorem step_call (he : ∀ op, e ≠ .cacher op) (hact : s.act e = .ok t) :
    s.step e = .ok (t, false) := by
  unfold step
  rw [hact, ok_bind]
  cases e with
  | cacher op => exact absurd rfl (he op)
  | _ => rfl

/-- A step with less than two gigabytes of dirty data: the references stay balanced, and
`flush_set_callback` is called exactly when the count goes from positive to zero. -/
theorem step_balanced (h : s.Balanced) (hsmall : s.dirtyTotal < 2 ^ 31) (hact : s.act e = .ok t) :
    ∃ u, s.step e = .ok (u, decide (0 < s.dirtyTotal ∧ u.dirtyTotal = 0)) ∧ u.cache = t.cache ∧
      u.dirtyTotal = t.dirtyTotal ∧ u.Balanced := by
  cases e with
  | write w =>
    obtain ⟨hbal, hpos⟩ := act_write_balanced h hsmall hact
    refine ⟨t, ?_, rfl, rfl, hbal⟩
    rw [step_call (by simp) hact, decide_eq_false (by omega)]
  | hold c =>
    have hstep := step_call (by simp) hact
    cases hact
    refine ⟨s.hold c, ?_, rfl, rfl, ⟨h.ok, h.sound, h.sole⟩, h.pinned.getCapRef c, ?_⟩
    · have hsame : (s.hold c).dirtyTotal = s.dirtyTotal := rfl
      rw [hstep, decide_eq_false (by omega)]
    · intro c' hc'
      exact hold_caps c c' _ (h.caps c' hc')
  | drop c =>
    have hstep := step_call (by simp) hact
    obtain ⟨_, hassert, hact⟩ := bind_eq_ok.mp hact
    obtain ⟨refs, hput, hact⟩ := bind_eq_ok.mp hact
    cases hact
    have hheld : 0 < s.held c := assertThat_eq_ok.mp hassert
    have hpos : 0 < s.refs.caps c := by
      by_contra hzero
      obtain ⟨_, hpos, -⟩ := bind_eq_ok.mp hput
      exact hzero (assertThat_eq_ok.mp hpos)
    obtain ⟨refs', hput', hpinned, hcaps⟩ := h.pinned.putCapRef hpos
    cases hput.symm.trans hput'
    refine ⟨_, ?_, rfl, rfl, ⟨h.ok, h.sound, h.sole⟩, hpinned, ?_⟩
    · rw [hstep, decide_eq_false]
      rintro ⟨hlt, heq⟩
      have hsame : s.dirtyTotal = 0 := heq
      omega
    · intro c' hc'
      have hold := h.caps c' hc'
      simp only [hcaps]
      by_cases hc : c' = c
      · subst hc
        simp only [if_true, update_self]
        change _ = s.held c' - 1 + if 0 < s.dirtyTotal then 1 else 0
        omega
      · simp only [hc, if_false, update_of_ne hc, Nat.sub_zero]
        exact hold
  | cacher op =>
    rw [step_cacher hact]
    obtain ⟨cache, hrun, hact⟩ := bind_eq_ok.mp hact
    cases hact
    have hkept := SetOp.kept h.ok h.sound h.sole hrun
    have hnonneg : 0 ≤ dirtyTotal { s with cache } := hkept.nonneg
    have hle : dirtyTotal { s with cache } ≤ s.dirtyTotal := hkept.le
    simp only [callsBack_eq h hsmall hrun, decide_eq_true_eq]
    by_cases hzero : 0 < s.dirtyTotal ∧ dirtyTotal { s with cache } = 0
    · -- the last dirty byte is gone
      rw [if_pos hzero]
      obtain ⟨refs, hflushed, hpinned, hcaps⟩ := flushed_spec (s := { s with cache }) h.pinned
        fun c hc => by rw [h.caps c hc, if_pos hzero.1]
      refine ⟨{ s with cache, refs }, ?_, rfl, rfl, ⟨hkept.ok, hkept.sound, hkept.sole⟩, hpinned,
        fun c hc => ?_⟩
      · rw [hflushed, ok_bind]
        exact congrArg (fun b => Except.ok (_, b)) (decide_eq_true hzero).symm
      · rw [hcaps c hc, if_neg]
        · rfl
        · exact hzero.2.not_gt
    · rw [if_neg hzero]
      refine ⟨_, ?_, rfl, rfl, ⟨hkept.ok, hkept.sound, hkept.sole⟩, h.pinned, fun c hc => ?_⟩
      · rw [decide_eq_false hzero]
      · rw [h.caps c hc]
        congr 1
        by_cases hpos : 0 < s.dirtyTotal
        · rw [if_pos hpos, if_pos (by omega)]
        · rw [if_neg hpos, if_neg (by omega)]

theorem SmallSteps.balanced (hrun : SmallSteps e s t) (h : s.Balanced)
    (hsmall : s.dirtyTotal < 2 ^ 31) : t.Balanced := by
  obtain ⟨⟨called, hstep⟩, -⟩ := hrun
  have hbind := hstep
  obtain ⟨t', hact, -⟩ := bind_eq_ok.mp hbind
  obtain ⟨u, hstep', -, -, hbal⟩ := step_balanced h hsmall hact
  obtain rfl : t = u := congrArg Prod.fst (Except.ok.inj (hstep.symm.trans hstep'))
  exact hbal

/-- As long as less than two gigabytes are dirty, the references on the cache and on the buffer
are one more than those of the calls exactly while there is dirty data. The next event calls
`flush_set_callback` once if it takes the count from positive to zero and not otherwise, and what
the callback drops is there. -/
theorem flushSetCallback_balanced {events : List BufferedEvent} (hnew : s.New)
    (hrun : Trace SmallSteps s events t) :
    (∀ c, c ≠ .wr → t.refs.caps c = t.held c + if 0 < t.dirtyOrTx then 1 else 0) ∧
      ∀ e t', t.act e = .ok t' → t'.dirtyTotal < 2 ^ 31 →
        ∃ u, t.step e = .ok (u, decide (0 < t.dirtyOrTx ∧ u.dirtyOrTx = 0)) ∧
          u.cache = t'.cache ∧ u.dirtyTotal = t'.dirtyTotal := by
  have hstart := hnew.balanced
  obtain ⟨hbal, hsmall⟩ : t.Balanced ∧ t.dirtyTotal < 2 ^ 31 := by
    refine hrun.invariant (P := fun s => s.Balanced ∧ s.dirtyTotal < 2 ^ 31) ?_
      ⟨hstart.1, by rw [hstart.2]; decide⟩
    intro e _ s t hstep hs
    exact ⟨hstep.balanced hs.1 hs.2, hstep.2⟩
  have hint := dirtyOrTx_of_small hbal.nonneg hsmall
  rw [hint]
  refine ⟨hbal.caps, ?_⟩
  intro e t' hact hsmall'
  obtain ⟨u, hstep, hcache, htotal, hbal'⟩ := step_balanced hbal hsmall hact
  refine ⟨u, ?_, hcache, htotal⟩
  rw [hstep, dirtyOrTx_of_small hbal'.nonneg (htotal ▸ hsmall')]

def untouched : BufferedInode where
  ino := 1
  oset := ⟨0, 0, 0, false⟩
  cache := { maxSize := 33554432, maxObjects := 1000 }
  refs := ⟨fun _ => 0, 1, 0⟩
  held := fun _ => 0

theorem untouched_new : untouched.New :=
  ⟨⟨rfl, rfl, rfl, rfl, rfl⟩, fun _ _ => rfl, by unfold Refs.Pinned; decide⟩

/-- `len` zeros at `offset` of a file with objects of four megabytes. -/
def zeros (offset len : ℕ) (hoffset : offset < 2 ^ 63) (hlen : len < 2 ^ 32) : BufferedWrite where
  layout := { stripeUnit := 4194304, stripeCount := 1, objectSize := 4194304, pgPool := 0,
              stripeCount_lt := one_lt_word }
  valid := by decide
  truncSize := 0
  offset := offset
  offset_lt := hoffset
  data := List.replicate len 0
  data_lt := by rwa [List.length_replicate]
  snapc := ⟨1, []⟩
  now := 0

/-- Two bytes are written and flushed; then the commit calls back. -/
theorem flushSetCallback_balanced_commit :
    ∃ t, Trace SmallSteps untouched
        [.write (zeros 0 2 (by decide) (by decide)), .drop .buffer, .cacher (.flushSet 0)] t ∧
      t.refs.caps .cache = 1 ∧
      ∃ u, t.step (.cacher (.writeCommit 1 0)) = .ok (u, true) ∧ u.dirtyTotal = 0 := by
  obtain ⟨s1, h1⟩ : ∃ t, t = ((untouched.step
    (.write (zeros 0 2 (by decide) (by decide)))).toOption.getD (untouched, false)).1 := ⟨_, rfl⟩
  obtain ⟨s2, h2⟩ : ∃ t, t = ((s1.step (.drop .buffer)).toOption.getD (untouched, false)).1 :=
    ⟨_, rfl⟩
  obtain ⟨s3, h3⟩ : ∃ t, t = ((s2.step
    (.cacher (.flushSet 0))).toOption.getD (untouched, false)).1 := ⟨_, rfl⟩
  have hone : SmallSteps (.write (zeros 0 2 (by decide) (by decide))) untouched s1 := by
    rw [h1]
    exact ⟨⟨_, eq_ok_getD (untouched, false) (by decide +kernel)⟩, by decide +kernel⟩
  have htwo : SmallSteps (.drop .buffer) s1 s2 := by
    rw [h2, h1]
    exact ⟨⟨_, eq_ok_getD (untouched, false) (by decide +kernel)⟩, by decide +kernel⟩
  have hthree : SmallSteps (.cacher (.flushSet 0)) s2 s3 := by
    rw [h3, h2, h1]
    exact ⟨⟨_, eq_ok_getD (untouched, false) (by decide +kernel)⟩, by decide +kernel⟩
  obtain ⟨s4, h4, hact⟩ := exists_eq_getD untouched (s3.act (.cacher (.writeCommit 1 0)))
    (by rw [h3, h2, h1]; decide +kernel)
  have htrace : Trace SmallSteps untouched
      [.write (zeros 0 2 (by decide) (by decide)), .drop .buffer, .cacher (.flushSet 0)] s3 :=
    .cons hone (.cons htwo (.single hthree))
  obtain ⟨hcaps, hnext⟩ := flushSetCallback_balanced untouched_new htrace
  have hdirty : s3.dirtyOrTx = 2 ∧ s3.held .cache = 0 := by
    rw [h3, h2, h1]
    decide +kernel
  have hclean : s4.dirtyTotal = 0 := by
    rw [h4, h3, h2, h1]
    decide +kernel
  obtain ⟨u, hstep, -, htotal⟩ := hnext _ s4 hact (by rw [hclean]; decide)
  have hzero : u.dirtyTotal = 0 := htotal.trans hclean
  refine ⟨s3, htrace, ?_, u, ?_, hzero⟩
  · rw [hcaps .cache (by decide), hdirty.1, hdirty.2]
    rfl
  · rw [hstep, decide_eq_true]
    exact ⟨by rw [hdirty.1]; decide, by rw [dirtyOrTx, hzero]; rfl⟩

/-! ### Four gigabytes -/

/-- A file is written from the start: its first `m` bytes are dirty and no others. -/
structure WrittenTo (s : BufferedInode) (layout : FileLayout) (m : ℕ) : Prop extends s.Tidy where
  cells : s.cache.view.unsavedCells = Cacher.fileCell layout s.ino '' Set.Iio m

theorem WrittenTo.dirtyTotal_eq {layout} {m} (h : s.WrittenTo layout m)
    (hv : cephFileLayoutIsValid layout = true) : s.dirtyTotal = m := by
  have hcount := (h.ok.osetDirtyOrTx_eq h.sole).2
  rw [h.cells, Set.ncard_image_of_injective _ (fileCell_injective hv s.ino)] at hcount
  rw [dirtyTotal, hcount]
  simp [Set.ncard_eq_toFinset_card']

theorem fileWrite_ok (h : s.cache.Ok) (hpos : 0 < w.data.length)
    (hunit : w.layout.objectSize / w.layout.stripeUnit = 1) :
    ∃ cache, s.fileWrite w = .ok cache := by
  have hoff := w.offset_lt
  have hdata := w.data_lt
  obtain ⟨exs, hexs, hexts⟩ := Striper.fileToExtents_spec w.valid s.ino w.truncSize hpos
    (by omega : w.offset + w.data.length < 2 ^ 64)
  have hwr := osdWrite_ok w.valid s.ino w.truncSize hdata hexts w.snapc false
  have hsingle : ∀ ex ∈ exs, ∃ first, ex.bufferExtents = [(first, ex.length)] := by
    intro ex hex
    rcases hwr.fragments hex with hfrag | hfrags
    · exact hfrag
    · obtain ⟨o, -, rfl⟩ := (hexts.mem ex).mp hex
      have hdepth : 2 ≤ (FileLayout.shape w.valid).depth :=
        (FileLayout.shape w.valid).two_le_depth
          (by simpa [Striper.rangeExtent, Striper.extentOf] using hfrags)
      have hone : (FileLayout.shape w.valid).depth = 1 := hunit
      omega
  obtain ⟨cache, hwrite, -⟩ :=
    writexLoop_stores s.oset w.now hwr h (fun _ he => he) hwr.distinct hsingle
  refine ⟨cache, ?_⟩
  rw [fileWrite, hexs, ok_bind]
  exact hwrite

theorem WrittenTo.write {m n} (hm : m < 2 ^ 63) (hn : n < 2 ^ 32) (hpos : 0 < n)
    (h : s.WrittenTo (zeros m n hm hn).layout m) :
    ∃ t, Steps (.write (zeros m n hm hn)) s t ∧ t.WrittenTo (zeros m n hm hn).layout (m + n) ∧
      t.held .cache = s.held .cache ∧
      t.refs.caps .cache = s.refs.caps .cache + if (m : ℤ).bmod (2 ^ 32) = 0 then 1 else 0 := by
  have hlen : (zeros m n hm hn).data.length = n := List.length_replicate
  obtain ⟨cache, hwrite⟩ := fileWrite_ok (w := zeros m n hm hn) h.ok (by rw [hlen]; exact hpos) (by
    change 4194304 / 4194304 = 1
    decide)
  obtain ⟨hok, hsound, hsole, hcells, -⟩ := fileWrite_spec h.toTidy hwrite
  have hdirty : s.dirtyOrTx = (m : ℤ).bmod (2 ^ 32) := by
    rw [dirtyOrTx, h.dirtyTotal_eq (zeros m n hm hn).valid]
  have hkept : s.holdDirty.oset = s.oset ∧ s.holdDirty.ino = s.ino ∧ s.holdDirty.held = s.held := by
    unfold holdDirty
    split_ifs <;> exact ⟨rfl, rfl, rfl⟩
  refine ⟨{ s.holdDirty.hold .buffer with cache := cache }, ⟨false, ?_⟩, ⟨⟨hok, hsound, ?_⟩, ?_⟩,
    ?_, ?_⟩
  · apply step_call (by simp)
    rw [act, hwrite, ok_bind]
    rfl
  · simp only [hold, hkept.1]
    exact hsole
  · simp only [hold, hkept.2.1]
    rw [hcells, h.cells, hlen, ← Set.image_union]
    congr 1
    ext i
    simp only [zeros, Set.mem_union, Set.mem_Iio, Set.mem_Ico]
    omega
  · simp [hold, hkept.2.2]
  · simp only [hold, Refs.getCapRef_caps, reduceCtorEq, if_false, Nat.add_zero]
    unfold holdDirty
    rw [hdirty]
    split_ifs
    · simp
    · rfl

/-- Four writes of a gigabyte each bring `dirty_or_tx` back to zero, so the next write takes the
references of dirty data a second time. -/
theorem flushSetCallback_doubled :
    ∃ t, Trace Steps untouched
        [.write (zeros 0 (2 ^ 30) (by decide) (by decide)),
          .write (zeros (2 ^ 30) (2 ^ 30) (by decide) (by decide)),
          .write (zeros (2 ^ 31) (2 ^ 30) (by decide) (by decide)),
          .write (zeros (2 ^ 31 + 2 ^ 30) (2 ^ 30) (by decide) (by decide)),
          .write (zeros (2 ^ 32) 1 (by decide) (by decide))] t ∧
      0 < t.dirtyOrTx ∧ t.held .cache = 0 ∧ t.refs.caps .cache = 2 := by
  have h0 : untouched.WrittenTo (zeros 0 (2 ^ 30) (by decide) (by decide)).layout 0 := by
    refine ⟨untouched_new.tidy, ?_⟩
    simp [View.unsavedCells, untouched_new.cache.view_cell]
  obtain ⟨s1, hstep1, h1, hheld1, hcaps1⟩ := h0.write (by decide) (by decide) (by decide)
  obtain ⟨s2, hstep2, h2, hheld2, hcaps2⟩ :=
    WrittenTo.write (m := 2 ^ 30) (n := 2 ^ 30) (by decide) (by decide) (by decide) h1
  obtain ⟨s3, hstep3, h3, hheld3, hcaps3⟩ :=
    WrittenTo.write (m := 2 ^ 31) (n := 2 ^ 30) (by decide) (by decide) (by decide) h2
  obtain ⟨s4, hstep4, h4, hheld4, hcaps4⟩ :=
    WrittenTo.write (m := 2 ^ 31 + 2 ^ 30) (n := 2 ^ 30) (by decide) (by decide) (by decide) h3
  obtain ⟨s5, hstep5, h5, hheld5, hcaps5⟩ :=
    WrittenTo.write (m := 2 ^ 32) (n := 1) (by decide) (by decide) (by decide) h4
  refine ⟨s5, .cons hstep1 (.cons hstep2 (.cons hstep3 (.cons hstep4 (.single hstep5)))), ?_, ?_,
    ?_⟩
  · rw [dirtyOrTx, h5.dirtyTotal_eq (zeros 0 1 (by decide) (by decide)).valid]
    decide
  · rw [hheld5, hheld4, hheld3, hheld2, hheld1]
    rfl
  · rw [hcaps5, hcaps4, hcaps3, hcaps2, hcaps1]
    decide

end BufferedInode

end CephDokan.Client
