import CephDokan.Client.Caps
import CephDokan.Osdc.ObjectCacher.FlushWait

/-!
# What an fsync waits for

`_fsync` flushes the object set of the inode and waits for the commits. For the metadata it
resends the caps that are flushing already, and only if others are dirty; a dirty cap is not
flushed at all, and the number it then waits for is of another counter than the numbers it is
compared with. So the data is safe when an fsync returns 0, and the metadata if nothing was
dirty or flushing at the call.
-/

namespace CephDokan.Client

open Fallible ObjectCacher CapBit Function List

/-- The client, as far as an fsync and the updates around it use it. -/
structure SyncState where
  clientOc : Bool
  data : Backed
  oset : ℕ → ObjectSet
  /-- The synchronous writes of an inode that have no commit yet. -/
  uncommitted : ℕ → List ℕ
  inode : ℕ → CapInode
  /-- The ranks in `mds_sessions`. -/
  sessions : List ℕ
  /-- `flushing_caps` of each session. -/
  flushingCaps : ℕ → List ℕ
  lastFlushSeq : ℕ
  asyncErr : ℕ → ℤ

/-- A call of `_fsync` that waits: for the commits that its completion gathers (`none` without
an object cacher), and for the flushes up to `want`. -/
structure FsyncCall where
  ino : ℕ
  waits : Option (List (Soid × ℕ))
  r : ℤ
  want : Option ℕ

/-! ### The call -/

/-- `flush_caps(in, session)` -/
def CapInode.flushCaps (inode : CapInode) (mds : ℕ) : Run CapInode :=
  match inode.auth, inode.authCap with
  | some a, some cap => do
    assertThat (a = mds)
    return (inode.sendCap mds cap inode.getCapsUsed inode.capsWanted
      (cap.issued ∪ cap.implemented) inode.flushing).1
  | _, _ => .error .dangling

/-- The loop of `_fsync` over the caps. -/
def CapInode.flushMetadata (inode : CapInode) (sessions : List ℕ) : Run CapInode :=
  inode.caps.keys.foldlM (fun inode mds =>
    match inode.caps.find? mds with
    | none => .ok inode
    | some cap =>
      if cap.implemented \ Mask.anyFileWr = ∅ then .ok inode
      else do
        assertThat (mds ∈ sessions)
        inode.flushCaps mds) inode

namespace SyncState

def setInode (s : SyncState) (i : ℕ) (inode : CapInode) : SyncState :=
  { s with inode := update s.inode i inode }

/-- `in->oset.dirty_or_tx`, an `int`. -/
def dirtyOrTx (s : SyncState) (i : ℕ) : ℤ :=
  (s.data.cache.books.osetDirtyOrTx (s.oset i).id).bmod (2 ^ 32)

/-- `_flush`: the cacher, the commits to wait for and the result so far. `full` is the flag of
the OSD map. -/
def flushData (s : SyncState) (i : ℕ) (full : Bool) (ctx : ℕ) :
    Run (Cacher × List (Soid × ℕ) × ℤ) :=
  let c := s.data.cache
  if s.dirtyOrTx i = 0 then .ok (c, [], 0)
  else if full then do
    let c ← c.purgeSet (s.oset i)
    return (c, [], -28)
  else do
    let c' ← c.flushSet (s.oset i) ctx
    return (c', if c.objectsOf (s.oset i) = [] then [] else c.waits c', 0)

/-- `_fsync` up to its first wait. -/
def fsync (s : SyncState) (i : ℕ) (syncdataonly full : Bool) (ctx : ℕ) :
    Run (SyncState × FsyncCall) := do
  let (s, waits, r) ← (if s.clientOc then do
      let (c, waits, r) ← s.flushData i full ctx
      return ({ s with data := { s.data with cache := c } }, some waits, r)
    else return (s, none, 0) : Run (SyncState × Option (List (Soid × ℕ)) × ℤ))
  if ¬syncdataonly ∧ (s.inode i).dirty \ Mask.anyFileWr ≠ ∅ then do
    let inode ← (s.inode i).flushMetadata s.sessions
    return (s.setInode i inode, ⟨i, waits, r, some inode.lastFlushTid⟩)
  else return (s, ⟨i, waits, r, none⟩)

end SyncState

/-! ### What happens meanwhile -/

inductive SyncEvent
  | data (a : Backed.Act)
  | syncWrite (i id : ℕ)
  | syncCommit (i id : ℕ)
  | markCapsDirty (i : ℕ) (mask : Mask)
  | checkCaps (i : ℕ) (env : CapInode.CheckEnv)
  | flushAck (i tid : ℕ) (dirty : Mask)
  /-- Grants, references and releases of caps. -/
  | caps (i : ℕ) (inode : CapInode)
  | session (ranks : List ℕ)
  | asyncError (i : ℕ) (r : ℤ)

/-- An inode whose dirty and flushing caps, and the numbers of its flushes, are those of another. -/
structure CapInode.SameFlush (inode inode' : CapInode) : Prop where
  dirty : inode'.dirty = inode.dirty
  flushing : inode'.flushing = inode.flushing
  flushingSeq : inode'.flushingSeq = inode.flushingSeq
  lastFlushTid : inode'.lastFlushTid = inode.lastFlushTid
  flushingTid : inode'.flushingTid = inode.flushingTid

namespace SyncState

/-- The inode goes to the end of the list of a session, if it is to go there. -/
def requeue (s : SyncState) (i : ℕ) (queued : Bool) : ℕ → List ℕ :=
  fun mds =>
    if queued then
      if (s.inode i).auth = some mds then (s.flushingCaps mds).erase i ++ [i]
      else (s.flushingCaps mds).erase i
    else s.flushingCaps mds

/-- The steps of the client and of its surroundings. A synchronous write holds a reference on
`FILE_BUFFER` until its commit, and the cacher writes only with `client_oc`. -/
inductive Step : SyncEvent → SyncState → SyncState → Prop
  | data {s : SyncState} {d : Backed} (a : Backed.Act) (h : Backed.Acts a s.data d)
      (hoc : (∃ oset wr now, a = .write oset wr now) → s.clientOc = true) :
      Step (.data a) s { s with data := d }
  | syncWrite {s : SyncState} (i id : ℕ) :
      Step (.syncWrite i id) s { s.setInode i ((s.inode i).getCapRef {fileBuffer}) with
        uncommitted := update s.uncommitted i (id :: s.uncommitted i) }
  | syncCommit {s : SyncState} (i id : ℕ) (hid : id ∈ s.uncommitted i) :
      Step (.syncCommit i id) s { s.setInode i { s.inode i with
          refs := update (s.inode i).refs fileBuffer ((s.inode i).refs fileBuffer - 1) } with
        uncommitted := update s.uncommitted i ((s.uncommitted i).erase id) }
  | markCapsDirty {s : SyncState} (i : ℕ) (mask : Mask) :
      Step (.markCapsDirty i mask) s
        (s.setInode i { s.inode i with dirty := (s.inode i).dirty ∪ mask })
  | checkCaps {s : SyncState} {c : CapInode.Checking} (i : ℕ) (env : CapInode.CheckEnv)
      (hrun : (s.inode i).checkCaps env s.lastFlushSeq = .ok c) :
      Step (.checkCaps i env) s { s.setInode i c.inode with
        lastFlushSeq := c.lastFlushSeq, flushingCaps := s.requeue i c.queued }
  | flushAck {s : SyncState} (i tid : ℕ) (dirty : Mask) :
      Step (.flushAck i tid dirty) s { s.setInode i ((s.inode i).handleCapFlushAck tid dirty).1 with
        flushingCaps := fun mds =>
          if ((s.inode i).handleCapFlushAck tid dirty).2 then (s.flushingCaps mds).erase i
          else s.flushingCaps mds }
  | caps {s : SyncState} (i : ℕ) (inode : CapInode) (hsame : (s.inode i).SameFlush inode)
      (hrefs : (s.uncommitted i).length ≤ inode.refs fileBuffer) :
      Step (.caps i inode) s (s.setInode i inode)
  | session {s : SyncState} (ranks : List ℕ) : Step (.session ranks) s { s with sessions := ranks }
  | asyncError {s : SyncState} (i : ℕ) (r : ℤ) :
      Step (.asyncError i r) s { s with asyncErr := update s.asyncErr i r }

end SyncState

namespace SyncEvent

def act : SyncEvent → Option Backed.Act
  | .data a => some a
  | _ => none

def Good (e : SyncEvent) : Prop := ∀ a, e.act = some a → a.Good

/-- What a completion that gathers the given commits is called with: the first error. -/
def gathered (waits : List (Soid × ℕ)) (evs : List SyncEvent) : ℤ :=
  (evs.filterMap fun e => match e with
    | .data (.commit w r) => if (w.key, w.tid) ∈ waits ∧ r < 0 then some r else none
    | _ => none).headD 0

end SyncEvent

namespace FsyncCall

def DataDone (call : FsyncCall) (evs : List SyncEvent) (s : SyncState) (r : ℤ) : Prop :=
  match call.waits with
  | some waits =>
    (∀ p ∈ waits, ∃ w r, .data (.commit w r) ∈ evs ∧ w.key = p.1 ∧ w.tid = p.2) ∧
      r = if call.r = 0 then SyncEvent.gathered waits evs else call.r
  | none => (s.inode call.ino).refs fileBuffer = 0 ∧ r = 0

/-- `wait_sync_caps` is over: the first inode on the list of each session has a later number. -/
def CapsDone (call : FsyncCall) (s : SyncState) : Prop :=
  ∀ want, call.want = some want → ∀ mds ∈ s.sessions, ∀ j,
    (s.flushingCaps mds).head? = some j → want < (s.inode j).flushingSeq

/-- The call returns `ret`, `evs` after its start. -/
structure Returns (call : FsyncCall) (s : SyncState) (evs : List SyncEvent) (s' : SyncState)
    (ret : ℤ) : Prop where
  done : ∃ before after mid r, evs = before ++ after ∧ Trace SyncState.Step s before mid ∧
    Trace SyncState.Step mid after s' ∧ call.DataDone before mid r ∧
    (r = 0 → call.CapsDone s') ∧ ret = if s'.asyncErr call.ino ≠ 0 then s'.asyncErr call.ino else r

end FsyncCall

/-! ### Durability -/

/-- What a successful fsync of the inode promises for what `s` holds. -/
structure SyncState.Durable (s : SyncState) (i : ℕ) (evs : List SyncEvent) : Prop where
  buffered : ∀ key ∈ s.data.cache.objectsOf (s.oset i), ∀ b x, s.data.written key b = some x →
    s.data.store key b = some x ∨ Backed.Commits (evs.filterMap SyncEvent.act) key b x
  sync : ∀ id ∈ s.uncommitted i, .syncCommit i id ∈ evs
  dirty : ∀ b ∈ (s.inode i).dirty, ∃ tid mask, .flushAck i tid mask ∈ evs ∧ b ∈ mask ∧
    (s.inode i).lastFlushTid < tid
  flushing : ∀ b ∈ (s.inode i).flushing, ∃ tid mask, .flushAck i tid mask ∈ evs ∧ b ∈ mask ∧
    (tid % 2 ^ 16 = (s.inode i).flushingTid b ∨ (s.inode i).lastFlushTid < tid)

namespace SyncState

variable {s s' : SyncState} {e : SyncEvent} {evs : List SyncEvent} {i : ℕ}

structure Initial (s : SyncState) : Prop where
  cache : s.data.cache.New
  written : s.data.written = fun _ _ => none
  uncommitted : ∀ i, s.uncommitted i = []

structure Inv (s : SyncState) : Prop where
  fine : s.data.Fine
  /-- Without a cacher nothing is written through it. -/
  uncached : s.clientOc = false → ∀ key b, s.data.written key b = none
  counted : ∀ i, (s.uncommitted i).length ≤ (s.inode i).refs fileBuffer

theorem Initial.inv (h : s.Initial) : s.Inv := by
  refine ⟨?_, fun _ key b => by rw [h.written], fun i => by simp [h.uncommitted i]⟩
  have hfine := Backed.fine_of_new h.cache s.data.store
  rw [← h.written] at hfine
  exact hfine

theorem Step.act_trace (h : Step e s s') : Trace Backed.Acts s.data (e.act.toList) s'.data := by
  cases h with
  | data a h => exact .single h
  | _ => exact .nil _

theorem trace_acts (h : Trace Step s evs s') :
    Trace Backed.Acts s.data (evs.filterMap SyncEvent.act) s'.data := by
  induction h with
  | nil => exact .nil _
  | @cons s t u e evs hstep _ ih =>
    have hone := hstep.act_trace
    rw [filterMap_cons]
    cases hact : e.act with
    | none =>
      rw [hact] at hone
      rw [← hone.eq_of_nil]
      exact ih
    | some a =>
      rw [hact] at hone
      exact hone.append ih

theorem Step.clientOc (h : Step e s s') : s'.clientOc = s.clientOc := by cases h <;> rfl

theorem checkCaps_refs {inode : CapInode} {env} {seq}
    {c} (hrun : inode.checkCaps env seq = .ok c) : c.inode.refs = inode.refs := by
  refine CapInode.checkCaps_invariant (P := fun c => c.inode.refs = inode.refs) hrun
    (fun _ => rfl) ?_
  intro c c' mds hround hc
  rcases CapInode.checkCap_cases hround with rfl | ⟨cap, inode', flush, -, heq, hnew, -⟩
  · exact hc
  · rw [hnew]
    rcases heq with rfl | rfl <;> exact hc

theorem handleCapFlushAck_refs (inode : CapInode) (tid : ℕ) (dirty : Mask) :
    (inode.handleCapFlushAck tid dirty).1.refs = inode.refs := by
  unfold CapInode.handleCapFlushAck
  dsimp only
  split_ifs <;> rfl

theorem counted_update {inode : ℕ → CapInode} {un : ℕ → List ℕ} {new} {l}
    (h : ∀ j, (un j).length ≤ (inode j).refs fileBuffer) (hi : l.length ≤ new.refs fileBuffer)
    (j : ℕ) : (update un i l j).length ≤ (update inode i new j).refs fileBuffer := by
  by_cases hj : j = i
  · subst hj
    simpa using hi
  · simpa [update_of_ne hj] using h j

theorem Step.counted (h : Step e s s')
    (hs : ∀ i, (s.uncommitted i).length ≤ (s.inode i).refs fileBuffer) (j : ℕ) :
    (s'.uncommitted j).length ≤ (s'.inode j).refs fileBuffer := by
  have hset : ∀ (i : ℕ) (new : CapInode), (s.uncommitted i).length ≤ new.refs fileBuffer →
      (s.uncommitted j).length ≤ (update s.inode i new j).refs fileBuffer := by
    intro i new hnew
    simpa using counted_update (i := i) hs hnew j
  cases h with
  | data a h => exact hs j
  | syncWrite i id =>
    refine counted_update hs ?_ j
    simpa [CapInode.getCapRef] using hs i
  | syncCommit i id hid =>
    refine counted_update hs ?_ j
    have hle := hs i
    rw [length_erase_of_mem hid]
    simp only [update_self]
    omega
  | markCapsDirty i mask => exact hset i _ (hs i)
  | checkCaps i env hrun => exact hset i _ (by rw [checkCaps_refs hrun]; exact hs i)
  | flushAck i tid dirty =>
    exact hset i _ (by rw [handleCapFlushAck_refs]; exact hs i)
  | caps i inode hsame hrefs => exact hset i inode hrefs
  | session ranks => exact hs j
  | asyncError i r => exact hs j

theorem Step.inv (h : Step e s s') (hgood : e.Good) (hs : s.Inv) : s'.Inv := by
  refine ⟨?_, ?_, h.counted hs.counted⟩
  · cases h with
    | data a h hoc => exact h.fine (hgood a rfl) hs.fine
    | _ => exact hs.fine
  · intro hoc key b
    rw [h.clientOc] at hoc
    cases h with
    | data a h hwrite =>
      cases h with
      | write oset wr now hwr hrun =>
        rw [hwrite ⟨oset, wr, now, rfl⟩] at hoc
        cases hoc
      | flush op hop hrun => exact hs.uncached hoc key b
      | commit w r hw hfirst hrun => exact hs.uncached hoc key b
    | _ => exact hs.uncached hoc key b

theorem trace_inv (h : Trace Step s evs s') (hgood : ∀ e ∈ evs, e.Good) (hs : s.Inv) : s'.Inv :=
  h.invariant (fun e he _ _ hstep hinv => hstep.inv (hgood e he) hinv) hs

/-! ### The data -/

variable {id ctx : ℕ} {full : Bool} {r : ℤ} {call : FsyncCall}

theorem Step.mem_uncommitted (h : Step e s s') (hid : id ∈ s.uncommitted i) :
    id ∈ s'.uncommitted i ∨ e = .syncCommit i id := by
  cases h with
  | syncWrite j id' =>
    left
    by_cases hj : i = j
    · subst hj
      simp [hid]
    · simpa [update_of_ne hj] using hid
  | syncCommit j id' hmem =>
    by_cases hj : i = j
    · subst hj
      by_cases heq : id = id'
      · exact .inr (by rw [heq])
      · left
        simpa using (mem_erase_of_ne heq).mpr hid
    · left
      simpa [update_of_ne hj] using hid
  | _ => exact .inl hid

theorem trace_uncommitted (h : Trace Step s evs s') (hid : id ∈ s.uncommitted i) :
    id ∈ s'.uncommitted i ∨ .syncCommit i id ∈ evs := by
  induction h with
  | nil => exact .inl hid
  | cons hstep _ ih =>
    rcases hstep.mem_uncommitted hid with hid | rfl
    · exact (ih hid).imp_right (mem_cons_of_mem _)
    · exact .inr mem_cons_self

theorem idle_of_dirtyOrTx (hs : s.data.Fine)
    (hsmall : s.data.cache.books.osetDirtyOrTx (s.oset i).id < 2 ^ 31) (hidle : s.dirtyOrTx i = 0) :
    s.data.cache.books.osetDirtyOrTx (s.oset i).id = 0 := by
  have hnonneg := Cacher.osetDirtyOrTx_nonneg hs.cache (s.oset i).id
  rw [dirtyOrTx, Int.bmod_def] at hidle
  omega

theorem objectsOf_ne_nil (hs : s.data.Fine) (hbusy : s.dirtyOrTx i ≠ 0) :
    s.data.cache.objectsOf (s.oset i) ≠ [] := by
  intro hempty
  apply hbusy
  rw [dirtyOrTx, Cacher.idle_of_empty hs.cache hempty]
  rfl

theorem flushData_cases {c} {waits}
    (hs : s.data.Fine) (hrun : s.flushData i full ctx = .ok (c, waits, r)) :
    (s.dirtyOrTx i = 0 ∧ c = s.data.cache) ∨ r = -28 ∨
      (s.data.cache.flushSet (s.oset i) ctx = .ok c ∧ s.data.cache.objectsOf (s.oset i) ≠ [] ∧
        waits = s.data.cache.waits c) := by
  unfold flushData at hrun
  by_cases hidle : s.dirtyOrTx i = 0
  · simp only [if_pos hidle, Except.ok.injEq, Prod.mk.injEq] at hrun
    exact .inl ⟨hidle, hrun.1.symm⟩
  · right
    have hne := objectsOf_ne_nil hs hidle
    simp only [if_neg hidle, if_neg hne] at hrun
    by_cases hfull : full = true
    · rw [if_pos hfull] at hrun
      obtain ⟨c', -, hrun⟩ := bind_eq_ok.mp hrun
      cases hrun
      exact .inl rfl
    · rw [if_neg hfull] at hrun
      obtain ⟨c', hflush, hrun⟩ := bind_eq_ok.mp hrun
      cases hrun
      exact .inr ⟨hflush, hne, rfl⟩

theorem flushData_eq {c} (hbusy : s.dirtyOrTx i ≠ 0)
    (hne : s.data.cache.objectsOf (s.oset i) ≠ [])
    (hflush : s.data.cache.flushSet (s.oset i) ctx = .ok c) :
    s.flushData i false ctx = .ok (c, s.data.cache.waits c, 0) := by
  unfold flushData
  rw [if_neg hbusy, if_neg (by simp), hflush, ok_bind, if_neg hne]
  rfl

theorem flushData_total (hs : s.data.Fine) (i ctx : ℕ) :
    ∃ res, s.flushData i false ctx = .ok res := by
  by_cases hidle : s.dirtyOrTx i = 0
  · unfold flushData
    simp [if_pos hidle]
  · have hne := objectsOf_ne_nil hs hidle
    obtain ⟨c', hflush, -⟩ := Cacher.flushSet_spec ctx hs.cache hne
    exact ⟨_, flushData_eq hidle hne hflush⟩

theorem flushMetadata_refs {inode inode' : CapInode} {sessions}
    (hrun : inode.flushMetadata sessions = .ok inode') : inode'.refs = inode.refs := by
  refine foldlM_invariant (P := fun t : CapInode => t.refs = inode.refs) hrun ?_ rfl
  intro mds _ t t' ht hstep
  cases hfind : t.caps.find? mds with
  | none =>
    rw [hfind] at hstep
    cases hstep
    exact ht
  | some cap =>
    simp only [hfind] at hstep
    split_ifs at hstep
    · cases hstep
      exact ht
    · obtain ⟨-, -, hstep⟩ := bind_eq_ok.mp hstep
      unfold CapInode.flushCaps at hstep
      split at hstep
      · obtain ⟨-, -, hstep⟩ := bind_eq_ok.mp hstep
        cases hstep
        exact ht
      · cases hstep

structure Started (s : SyncState) (i : ℕ) (full : Bool) (ctx : ℕ) (s' : SyncState)
    (call : FsyncCall) : Prop where
  ino : call.ino = i
  uncommitted : s'.uncommitted = s.uncommitted
  refs : ∀ j, (s'.inode j).refs = (s.inode j).refs
  data : (s.clientOc = true ∧ ∃ c waits, s.flushData i full ctx = .ok (c, waits, call.r) ∧
      s'.data = { s.data with cache := c } ∧ call.waits = some waits) ∨
    (s.clientOc = false ∧ s'.data = s.data ∧ call.waits = none)

theorem fsync_started {syncdataonly : Bool}
    (hrun : s.fsync i syncdataonly full ctx = .ok (s', call)) : Started s i full ctx s' call := by
  obtain ⟨⟨s₁, waits, r⟩, hdata, hrun⟩ := bind_eq_ok.mp hrun
  dsimp only at hrun
  have hmid : s₁.uncommitted = s.uncommitted ∧ s₁.inode = s.inode ∧
      ((s.clientOc = true ∧ ∃ c ws, s.flushData i full ctx = .ok (c, ws, r) ∧
        s₁.data = { s.data with cache := c } ∧ waits = some ws) ∨
      (s.clientOc = false ∧ s₁.data = s.data ∧ waits = none)) := by
    by_cases hoc : s.clientOc = true
    · rw [if_pos hoc] at hdata
      obtain ⟨⟨c, ws, r'⟩, hflush, hdata⟩ := bind_eq_ok.mp hdata
      cases hdata
      exact ⟨rfl, rfl, .inl ⟨hoc, c, ws, hflush, rfl, rfl⟩⟩
    · rw [if_neg hoc] at hdata
      cases hdata
      exact ⟨rfl, rfl, .inr ⟨by simpa using hoc, rfl, rfl⟩⟩
  obtain ⟨hun, hinode, hdata⟩ := hmid
  by_cases hmeta : ¬syncdataonly = true ∧ (s₁.inode i).dirty \ Mask.anyFileWr ≠ ∅
  · rw [if_pos hmeta] at hrun
    obtain ⟨inode, hflush, hrun⟩ := bind_eq_ok.mp hrun
    cases hrun
    refine ⟨rfl, hun, fun j => ?_, hdata⟩
    by_cases hj : j = i
    · subst hj
      simp only [setInode, update_self]
      rw [flushMetadata_refs hflush, hinode]
    · simp only [setInode, update_of_ne hj, hinode]
  · rw [if_neg hmeta] at hrun
    cases hrun
    exact ⟨rfl, hun, fun j => by rw [hinode], hdata⟩

theorem fsync_total (hs : s.data.Fine) (hdirty : (s.inode i).dirty = ∅) (syncdataonly : Bool)
    (ctx : ℕ) : ∃ res, s.fsync i syncdataonly false ctx = .ok res := by
  obtain ⟨⟨c, waits, r⟩, hflush⟩ := flushData_total hs i ctx
  unfold fsync
  by_cases hoc : s.clientOc = true
  · rw [if_pos hoc, hflush]
    simp [ok_bind, hdirty]
  · rw [if_neg hoc]
    simp [hdirty]

section

variable {mid : SyncState} (h : Started s i full ctx s' call) (hs : s.Inv)
  (hrun : Trace Step s' evs mid)

include h hs hrun

theorem Started.buffered (hsmall : s.data.cache.books.osetDirtyOrTx (s.oset i).id < 2 ^ 31)
    (hgood : ∀ e ∈ evs, e.Good) (hdone : call.DataDone evs mid r) (hr : r = 0)
    {key} (hkey : key ∈ s.data.cache.objectsOf (s.oset i)) {b} {x}
    (hx : s.data.written key b = some x) :
    s.data.store key b = some x ∨ Backed.Commits (evs.filterMap SyncEvent.act) key b x := by
  rcases h.data with ⟨-, c, waits, hflush, hdata, hwaits⟩ | ⟨hoc, -, -⟩
  · unfold FsyncCall.DataDone at hdone
    rw [hwaits] at hdone
    obtain ⟨hall, hres⟩ := hdone
    rcases flushData_cases hs.fine hflush with ⟨hidle, -⟩ | hfull | ⟨hset, hne, rfl⟩
    · exact .inl (hs.fine.stored_of_idle (idle_of_dirtyOrTx hs.fine hsmall hidle) hkey hx)
    · omega
    · have htrace := trace_acts hrun
      rw [hdata] at htrace
      refine hs.fine.flushed hset hne htrace ?_ ?_ hx
      · intro a ha
        obtain ⟨e, he, hact⟩ := mem_filterMap.mp ha
        exact hgood e he a hact
      · intro p hp
        obtain ⟨w, r', hmem, hw⟩ := hall p hp
        exact ⟨w, r', mem_filterMap.mpr ⟨_, hmem, rfl⟩, hw⟩
  · rw [hs.uncached hoc key b] at hx
    cases hx

theorem Started.sync (hdone : call.DataDone evs mid r) (hoc : s.clientOc = false)
    (hid : id ∈ s.uncommitted i) : .syncCommit i id ∈ evs := by
  rcases h.data with ⟨hoc', -⟩ | ⟨-, -, hwaits⟩
  · rw [hoc] at hoc'
    cases hoc'
  · unfold FsyncCall.DataDone at hdone
    rw [hwaits, h.ino] at hdone
    have hcount : ∀ j, (mid.uncommitted j).length ≤ (mid.inode j).refs fileBuffer := by
      refine hrun.invariant
        (P := fun t => ∀ j, (t.uncommitted j).length ≤ (t.inode j).refs fileBuffer)
        (fun e _ _ _ hstep ht => hstep.counted ht) ?_
      intro j
      rw [h.uncommitted, h.refs]
      exact hs.counted j
    have hnone : mid.uncommitted i = [] := by
      have hle := hcount i
      exact length_eq_zero_iff.mp (by omega)
    rw [← h.uncommitted] at hid
    rcases trace_uncommitted hrun hid with hmem | hmem
    · rw [hnone] at hmem
      cases hmem
    · exact hmem

end

/-- The inode has nothing at the call that the fsync would not take care of: no dirty and no
flushing caps, with an object cacher no synchronous write on its way, and not more dirty bytes than
an `int` counts. -/
structure Quiet (s : SyncState) (i : ℕ) : Prop where
  dirty : (s.inode i).dirty = ∅
  flushing : (s.inode i).flushing = ∅
  sync : s.clientOc = true → s.uncommitted i = []
  small : s.data.cache.books.osetDirtyOrTx (s.oset i).id < 2 ^ 31

/-- For an inode that is quiet at the call, in a history without failed commits, an fsync fails
no assertion, and what it promises holds when it returns 0. -/
theorem fsync_durable {s₀ : SyncState} {history : List SyncEvent} (h₀ : s₀.Initial)
    (hhistory : Trace Step s₀ history s) (hfine : ∀ e ∈ history, e.Good) (hquiet : s.Quiet i)
    (ctx : ℕ) :
    (∃ res, s.fsync i false false ctx = .ok res) ∧
      ∀ full s₁ call, s.fsync i false full ctx = .ok (s₁, call) → ∀ evs s₂,
        (∀ e ∈ evs, e.Good) → call.Returns s₁ evs s₂ 0 → s.Durable i evs := by
  have hs : s.Inv := trace_inv hhistory hfine h₀.inv
  refine ⟨fsync_total hs.fine hquiet.dirty false ctx, ?_⟩
  intro full s₁ call hrun evs s₂ hgood hret
  have hstart := fsync_started hrun
  obtain ⟨before, after, mid, r, rfl, hbefore, -, hdone, -, hzero⟩ := hret.done
  have hr : r = 0 := by
    split_ifs at hzero with herr
    · exact absurd hzero.symm herr
    · exact hzero.symm
  refine ⟨?_, ?_, by simp [hquiet.dirty], by simp [hquiet.flushing]⟩
  · intro key hkey b x hx
    refine (hstart.buffered hs hbefore hquiet.small
      (fun e he => hgood e (mem_append_left _ he)) hdone hr
      hkey hx).imp_right ?_
    rintro ⟨w, r', hmem, hw⟩
    rw [filterMap_append]
    exact ⟨w, r', mem_append_left _ hmem, hw⟩
  · intro id hid
    by_cases hoc : s.clientOc = true
    · rw [hquiet.sync hoc] at hid
      cases hid
    · exact mem_append_left _ (hstart.sync hs hbefore hdone (by simpa using hoc) hid)

/-! ### Runs -/

def mounted (inode : CapInode) : SyncState where
  clientOc := true
  data := ⟨{ maxSize := 16, maxObjects := 16 }, fun _ _ => none, fun _ _ => none⟩
  oset := fun _ => ⟨0, 0, 0, false⟩
  uncommitted := fun _ => []
  inode := fun _ => inode
  sessions := [0, 1]
  flushingCaps := fun _ => []
  lastFlushSeq := 0
  asyncErr := fun _ => 0

theorem mounted_initial (inode : CapInode) : (mounted inode).Initial :=
  ⟨⟨rfl, rfl, rfl, rfl, rfl⟩, rfl, fun _ => rfl⟩

/-- A write through the cache, an fsync, and the commit that it waits for. -/
theorem fsync_durable_written :
    let key := soid 0 "1.00000000" cephNosnap
    let inode := CapInode.holding ⟨[(0, ⟨{pin, authExcl}, {pin, authExcl}, ∅⟩)], by simp⟩ 0
    ∃ e s res evs s₂, Trace Step (mounted inode) [e] s ∧ s.data.written key 0 = some 1 ∧
      s.data.store key 0 = none ∧ s.fsync 0 false false 0 = .ok res ∧ res.2.Returns res.1 evs s₂ 0 ∧
      s.Durable 0 evs := by
  intro key inode
  let c : Cacher := { maxSize := 16, maxObjects := 16 }
  let oset : ObjectSet := ⟨0, 0, 0, false⟩
  let wr : OSDWrite :=
    ⟨[⟨"1.00000000", 0, 0, 2, 0, 0, [(0, 2)]⟩], ⟨1, [1]⟩, [1, 2], false⟩
  let w : WriteCommit := ⟨1, key, 0, 2, [1, 2], ⟨1, [1]⟩⟩
  obtain ⟨c1, hc1, h1⟩ := exists_eq_getD c (c.writex oset wr 0) (by decide +kernel)
  obtain ⟨c2, hc2, h2⟩ := exists_eq_getD c (c1.flushSet oset 0) (by rw [hc1]; decide +kernel)
  obtain ⟨c3, hc3, h3⟩ := exists_eq_getD c (c2.bhWriteCommit w 0)
    (by rw [hc2, hc1]; decide +kernel)
  have hok : wr.Ok := by constructor <;> decide
  obtain ⟨hbusy, hne⟩ : c1.books.osetDirtyOrTx oset.id = 2 ∧ c1.objectsOf oset ≠ [] := by
    rw [hc1]
    decide +kernel
  obtain ⟨hw, hfirst, hwaits⟩ : w ∈ c2.writes ∧
      (∀ w' ∈ c2.writes, w'.key = w.key → w.tid ≤ w'.tid) ∧ c1.waits c2 = [(key, 1)] := by
    rw [hc2, hc1]
    decide +kernel
  have hbyte : wr.over (fun _ _ => none) key 0 = some 1 := by decide +kernel
  let s : SyncState := { mounted inode with data := ⟨c1, wr.over fun _ _ => none, fun _ _ => none⟩ }
  let s₁ : SyncState := { s with data := { s.data with cache := c2 } }
  let s₂ : SyncState := { s with
    data := { s.data with cache := c3, store := w.over fun _ _ => none } }
  have hact : Backed.Acts (.write oset wr 0) ⟨c, fun _ _ => none, fun _ _ => none⟩
      ⟨c1, wr.over fun _ _ => none, fun _ _ => none⟩ := .write oset wr 0 hok h1
  have hwrite : Trace Step (mounted inode) [.data (.write oset wr 0)] s :=
    .single (.data _ hact fun _ => rfl)
  have htwo : s.data.cache.books.osetDirtyOrTx (s.oset 0).id = 2 := hbusy
  have hflush : s.flushData 0 false 0 = .ok (c2, [(key, 1)], 0) := by
    rw [← hwaits]
    exact flushData_eq (by rw [dirtyOrTx, htwo]; decide) hne h2
  have hfsync : s.fsync 0 false false 0 = .ok (s₁, ⟨0, some [(key, 1)], 0, none⟩) := by
    unfold fsync
    rw [hflush]
    rfl
  have hcommit : Trace Step s₁ [.data (.commit w 0)] s₂ :=
    .single (.data _ (.commit w 0 hw hfirst h3) (by simp))
  have hret : FsyncCall.Returns ⟨0, some [(key, 1)], 0, none⟩ s₁ [.data (.commit w 0)] s₂ 0 := by
    refine ⟨_, [], s₂, 0, (append_nil _).symm, hcommit, .nil _, ⟨?_, ?_⟩, ?_, rfl⟩
    · intro p hp
      rw [mem_singleton.mp hp]
      exact ⟨w, 0, mem_singleton_self _, rfl, rfl⟩
    · rfl
    · intro _ want hwant
      cases hwant
  have hquiet : s.Quiet 0 := ⟨rfl, rfl, fun _ => rfl, by rw [htwo]; decide⟩
  have hgood : ∀ e ∈ [SyncEvent.data (.write oset wr 0)], e.Good := by
    intro e he a ha
    rw [mem_singleton.mp he] at ha
    cases ha
    trivial
  have hgood' : ∀ e ∈ [SyncEvent.data (.commit w 0)], e.Good := by
    intro e he a ha
    rw [mem_singleton.mp he] at ha
    cases ha
    exact le_refl (0 : ℤ)
  exact ⟨_, s, _, _, s₂, hwrite, hbyte, rfl, hfsync, hret,
    (fsync_durable (mounted_initial inode) hwrite hgood hquiet 0).2
      false s₁ _ hfsync _ s₂ hgood' hret⟩

/-- A changed mode is in a dirty cap. With one cap the fsync flushes nothing, does not wait and
returns 0; with a second one, from an MDS that is not the auth one, it fails an assertion. -/
theorem fsync_dirtyCap_lost :
    let cap : InodeCap := ⟨{pin, authExcl}, {pin, authExcl}, ∅⟩
    let one := CapInode.holding ⟨[(0, cap)], by simp⟩ 0
    let two := CapInode.holding ⟨[(0, cap), (1, ⟨{pin}, {pin}, ∅⟩)], by simp⟩ 0
    (∃ s res, Trace Step (mounted one) [.markCapsDirty 0 {authExcl}] s ∧
      s.fsync 0 false false 0 = .ok res ∧ res.2.Returns res.1 [] res.1 0 ∧ ¬s.Durable 0 []) ∧
    ∃ s, Trace Step (mounted two) [.markCapsDirty 0 {authExcl}] s ∧
      s.fsync 0 false false 0 = .error .assertion := by
  intro cap one two
  let chmod : CapInode → SyncState := fun inode =>
    (mounted inode).setInode 0 { inode with dirty := inode.dirty ∪ {authExcl} }
  have hchmod : ∀ inode, Trace Step (mounted inode) [.markCapsDirty 0 {authExcl}] (chmod inode) :=
    fun inode => .single (.markCapsDirty 0 {authExcl})
  refine ⟨?_, chmod two, hchmod two, ?_⟩
  · have hres : ((chmod one).fsync 0 false false 0).toOption.map (fun res =>
        ((res.2.ino, res.2.r, res.2.waits.map List.length),
          res.1.sessions.map fun mds => (res.1.flushingCaps mds).head?, res.1.asyncErr 0)) =
        some ((0, 0, some 0), [none, none], 0) := by decide +kernel
    obtain ⟨⟨s₁, ino, waits, r, want⟩, hrun, heq⟩ := Option.map_eq_some_iff.mp hres
    simp only [Prod.mk.injEq] at heq
    obtain ⟨⟨rfl, rfl, hwaits⟩, hheads, herr⟩ := heq
    obtain ⟨ws, rfl, hws⟩ := Option.map_eq_some_iff.mp hwaits
    obtain rfl := length_eq_zero_iff.mp hws
    refine ⟨chmod one, _, hchmod one, eq_ok_of_toOption hrun, ?_, ?_⟩
    · refine ⟨[], [], s₁, 0, rfl, .nil _, .nil _, ⟨by simp, rfl⟩, ?_, by simp [herr]⟩
      intro _ _ _ mds hmds j hj
      have hnone : (s₁.flushingCaps mds).head? ∈ [none, none] := by
        rw [← hheads]
        exact mem_map_of_mem hmds
      simp [hj] at hnone
    · intro hdurable
      obtain ⟨tid, mask, hmem, -⟩ := hdurable.dirty authExcl (by decide)
      cases hmem
  · have hres : ((chmod two).fsync 0 false false 0).map (fun _ => ()) = .error .assertion := by
      decide +kernel
    cases hrun : (chmod two).fsync 0 false false 0 with
    | error f =>
      rw [hrun] at hres
      exact congrArg Except.error (Except.error.inj hres)
    | ok res =>
      rw [hrun] at hres
      cases hres

end SyncState

end CephDokan.Client
