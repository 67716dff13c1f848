import CephDokan.Client.Fsync

/-!
# What a sync of the caps waits for

A flush of dirty caps gets the next number of the client, and the inode goes to the end of the
list of the session of its auth cap. `wait_sync_caps` looks at the first inode of each list
only. The lists are in the order of the numbers as long as an inode is not flushed again
before its acknowledgement, and as long as a migration does not put it behind a later flush.
-/

namespace CephDokan.Client

open Fallible CapBit List Except CapInode

/-! ### The client -/

/-- The numbers of a `Cap`. -/
structure CapIds where
  capId : ℕ
  seq : BitVec 32
  mseq : BitVec 32
  deriving DecidableEq

/-- `ceph_seq_cmp` -/
def cephSeqCmp (a b : BitVec 32) : ℤ := (a - b).toInt

/-- A flush that `mark_caps_flushing` started, with the `client_tid` of its message. -/
structure CapFlush where
  seq : ℕ
  ino : ℕ
  caps : Mask
  tid : ℕ
  deriving DecidableEq

/-- A `CEPH_CAP_OP_FLUSH_ACK` from an MDS. -/
structure CapAck where
  ino : ℕ
  tid : ℕ
  dirty : Mask
  deriving DecidableEq

/-- The client, as far as the flushes of caps use it, with the flushes that it started and the
acknowledgements that came in. -/
structure CapsClient where
  inode : ℕ → CapInode
  /-- The numbers of the cap that an inode has from an MDS. -/
  ids : ℕ → ℕ → CapIds
  /-- The ranks in `mds_sessions`. -/
  sessions : List ℕ
  /-- `flushing_caps` of each session. -/
  flushingCaps : ℕ → List ℕ
  lastFlushSeq : ℕ
  started : List CapFlush
  acks : List CapAck

structure CapMove where
  capId : ℕ
  caps : Mask
  seq : BitVec 32
  mseq : BitVec 32
  peerMds : ℕ
  peerCapId : ℕ
  peerSeq : BitVec 32
  peerMseq : BitVec 32

namespace CapsClient

variable (s : CapsClient)

def setInode (i : ℕ) (inode : CapInode) : CapsClient :=
  { s with inode := Function.update s.inode i inode }

/-- `flushing_cap_item.is_on_list()` -/
def isOnList (i : ℕ) : Bool := s.sessions.any fun mds => i ∈ s.flushingCaps mds

/-- The item of the inode leaves the list it is on, and goes to the end of another one. -/
def relisted (lists : ℕ → List ℕ) (i : ℕ) (dest : Option ℕ) : ℕ → List ℕ := fun mds =>
  if dest = some mds then (lists mds).filter (· ≠ i) ++ [i] else (lists mds).filter (· ≠ i)

/-! ### Flushes -/

/-- `check_caps`. With a flush it is `mark_caps_flushing` that puts the inode on the list. -/
def checkCaps (i : ℕ) (env : CheckEnv) : Run CapsClient := do
  let c ← (s.inode i).checkCaps { env with sessions := s.sessions } s.lastFlushSeq
  if c.queued then
    return { s.setInode i c.inode with
      lastFlushSeq := c.lastFlushSeq
      flushingCaps := relisted s.flushingCaps i c.inode.auth
      started := ⟨c.lastFlushSeq, i, (s.inode i).dirty, c.inode.lastFlushTid⟩ :: s.started }
  else return { s.setInode i c.inode with lastFlushSeq := c.lastFlushSeq }

/-- `flush_caps(in, session)` -/
def flushCaps (mds i : ℕ) : Run CapsClient := do
  let inode ← (s.inode i).flushCaps mds
  return s.setInode i inode

/-- `kick_flushing_caps`, behind the cap snaps. -/
def kickFlushingCaps (mds : ℕ) : Run CapsClient :=
  (s.flushingCaps mds).foldlM (fun s i =>
    if (s.inode i).flushing ≠ ∅ then s.flushCaps mds i else .ok s) s

/-- `handle_cap_flush_ack`; an acknowledgement for a cap that is gone is dropped. -/
def handleCapFlushAck (mds i tid : ℕ) (dirty : Mask) : CapsClient :=
  let t := { s with acks := ⟨i, tid, dirty⟩ :: s.acks }
  if mds ∈ s.sessions ∧ ((s.inode i).caps.find? mds).isSome then
    let res := (s.inode i).handleCapFlushAck tid dirty
    { t.setInode i res.1 with
      flushingCaps := if res.2 then relisted s.flushingCaps i none else s.flushingCaps }
  else t

/-! ### Caps that come and go -/

variable (i mds : ℕ)

/-- The cap of `mds` becomes the auth cap, and a flushing inode goes to the list of its
session. -/
def setAuth : CapsClient :=
  { s.setInode i { s.inode i with auth := some mds } with
    flushingCaps :=
      if (s.inode i).auth.isSome && s.isOnList i then relisted s.flushingCaps i (some mds)
      else s.flushingCaps }

def setCap (cap : InodeCap) (ids : CapIds) : CapsClient :=
  { s.setInode i { s.inode i with caps := (s.inode i).caps.insert mds cap } with
    ids := Function.update s.ids i (Function.update (s.ids i) mds ids) }

/-- The cap with the flag `CEPH_CAP_FLAG_AUTH` is newer than the auth cap. -/
def changesAuth (mseq : BitVec 32) (isAuth : Bool) : Bool :=
  isAuth && (s.inode i).auth ≠ some mds &&
    match (s.inode i).auth with
    | none => true
    | some a => cephSeqCmp (s.ids i a).mseq mseq < 0

/-- The end of `add_update_cap`, for the cap as it was. -/
def updateCap (cap : InodeCap) (ids : CapIds) (issued : Mask) (isAuth : Bool) (env : CheckEnv) :
    Run CapsClient :=
  let s := if s.changesAuth i mds ids.mseq isAuth then s.setAuth i mds else s
  let s := s.setCap i mds ⟨cap.issued ∪ issued, cap.implemented ∪ issued, cap.wanted⟩ ids
  -- another MDS revokes what is new here
  if issued \ cap.issued ≠ ∅ ∧ (s.inode i).auth = some mds ∧
      (s.inode i).othersRevoke mds issued then
    s.checkCaps i { env with isDelayed := true }
  else .ok s

/-- `add_update_cap`. A message from before the import does not take anything back. -/
def addUpdateCap (ids : CapIds) (issued : Mask) (isAuth : Bool) (env : CheckEnv) : Run CapsClient :=
  match (s.inode i).caps.find? mds with
  | some cap =>
    let old := s.ids i mds
    if cephSeqCmp ids.seq old.seq ≤ 0 then do
      assertThat ((s.inode i).auth = some mds)
      assertThat (old.capId = ids.capId)
      s.updateCap i mds cap
        { ids with seq := old.seq, mseq := old.mseq } (issued ∪ cap.issued) true env
    else s.updateCap i mds cap ids issued isAuth env
  | none => s.updateCap i mds ⟨∅, ∅, ∅⟩ ids issued isAuth env

/-- `remove_cap` -/
def removeCap : CapsClient :=
  if (s.inode i).auth = some mds then
    { s.setInode i { s.inode i with caps := (s.inode i).caps.erase mds, auth := none } with
      flushingCaps := relisted s.flushingCaps i none }
  else s.setInode i { s.inode i with caps := (s.inode i).caps.erase mds }

/-- `_get_or_open_mds_session` -/
def openSession (mds : ℕ) : CapsClient :=
  if mds ∈ s.sessions then s else { s with sessions := s.sessions ++ [mds] }

def exportTo (cap : InodeCap) (m : CapMove) (env : CheckEnv) :
    Run CapsClient :=
  let ids : CapIds := ⟨m.peerCapId, m.peerSeq - 1, m.peerMseq⟩
  match (s.inode i).caps.find? m.peerMds with
  | some tcap =>
    if (s.ids i m.peerMds).capId ≠ m.peerCapId ∨
        cephSeqCmp (s.ids i m.peerMds).seq m.peerSeq < 0 then
      let t := s.setCap i m.peerMds
        ⟨tcap.issued ∪ cap.issued, tcap.implemented ∪ cap.issued, tcap.wanted⟩ ids
      .ok (if (s.inode i).auth = some mds ∨ (s.inode i).auth = some m.peerMds then
        t.setAuth i m.peerMds else t)
    else .ok s
  | none => s.addUpdateCap i m.peerMds ids cap.issued ((s.inode i).auth = some mds) env

/-- `handle_cap_export` -/
def handleCapExport (mds i : ℕ) (m : CapMove) (env : CheckEnv) :
    Run CapsClient :=
  match (s.inode i).caps.find? mds with
  | none => .ok s
  | some cap =>
    if (s.ids i mds).capId ≠ m.capId then .ok s
    else do
      let t ← if m.peerCapId ≠ 0 then (s.openSession m.peerMds).exportTo i mds cap m env else .ok s
      return t.removeCap i mds

/-- `handle_cap_import`, behind the trace of the snap realms. The grant comes on its own. -/
def handleCapImport (mds i : ℕ) (m : CapMove) (env : CheckEnv) :
    Run CapsClient := do
  let t ← s.addUpdateCap i mds ⟨m.capId, m.seq, m.mseq⟩ m.caps true env
  let t := if m.peerCapId ≠ 0 ∧ ((t.inode i).caps.find? m.peerMds).isSome ∧
      (t.ids i m.peerMds).capId = m.peerCapId then t.removeCap i m.peerMds else t
  if (t.inode i).auth = some mds ∧ (t.inode i).flushing ≠ ∅ then t.flushCaps mds i
  else return t

end CapsClient

/-! ### Histories -/

inductive CapsEvent
  | markCapsDirty (i : ℕ) (mask : Mask)
  | checkCaps (i : ℕ) (env : CheckEnv)
  | flushCaps (mds i : ℕ)
  | kickFlushingCaps (mds : ℕ)
  | flushAck (mds i tid : ℕ) (dirty : Mask)
  | capExport (mds i : ℕ) (m : CapMove) (env : CheckEnv)
  | capImport (mds i : ℕ) (m : CapMove) (env : CheckEnv)
  /-- A cap in the reply to a request. -/
  | addUpdateCap (mds i : ℕ) (ids : CapIds) (issued : Mask) (isAuth : Bool)
      (env : CheckEnv)
  /-- Grants, references and releases of caps. -/
  | caps (i : ℕ) (inode : CapInode)

namespace CapsClient

/-- The handlers of the client. A message without a session is dropped. -/
def handle (s : CapsClient) : CapsEvent → Run CapsClient
  | .markCapsDirty i mask =>
    .ok (s.setInode i { s.inode i with dirty := (s.inode i).dirty ∪ mask })
  | .checkCaps i env => s.checkCaps i env
  | .flushCaps mds i => s.flushCaps mds i
  | .kickFlushingCaps mds => s.kickFlushingCaps mds
  | .flushAck mds i tid dirty => .ok (s.handleCapFlushAck mds i tid dirty)
  | .capExport mds i m env => if mds ∈ s.sessions then s.handleCapExport mds i m env else .ok s
  | .capImport mds i m env => if mds ∈ s.sessions then s.handleCapImport mds i m env else .ok s
  | .addUpdateCap mds i ids issued isAuth env =>
    if mds ∈ s.sessions then s.addUpdateCap i mds ids issued isAuth env else .ok s
  | .caps i inode => .ok (s.setInode i inode)

/-- A step of the client. The other changes of the caps are not of a flush. -/
structure Step (e : CapsEvent) (s s' : CapsClient) : Prop where
  run : s.handle e = .ok s'
  same : ∀ i inode, e = .caps i inode → (s.inode i).SameFlush inode ∧ inode.auth = (s.inode i).auth

structure Initial (s : CapsClient) : Prop where
  flushing : ∀ i, (s.inode i).flushing = ∅
  flushingSeq : ∀ i, (s.inode i).flushingSeq = 0
  flushingCaps : ∀ mds, s.flushingCaps mds = []
  started : s.started = []

/-- `wait_sync_caps(want)` finds nothing to wait for, and returns. -/
def waitSyncCaps (s : CapsClient) (want : ℕ) : Bool :=
  s.sessions.all fun mds => (s.flushingCaps mds).head?.all fun j => want < (s.inode j).flushingSeq

/-- An MDS has acknowledged the bit, for the message of the flush or for a later one. -/
def AckedBit (s : CapsClient) (r : CapFlush) (b : CapBit) : Prop :=
  ∃ a ∈ s.acks, a.ino = r.ino ∧ b ∈ a.dirty ∧ r.tid ≤ a.tid

def Acknowledged (s : CapsClient) (r : CapFlush) : Prop := ∀ b ∈ r.caps, s.AckedBit r b

/-- What a step has to meet for the lists to stay in order. -/
structure Meets (e : CapsEvent) (s s' : CapsClient) : Prop where
  /-- A flushing inode is not flushed under another number. -/
  once : ∀ i, (s.inode i).flushing ≠ ∅ → (s'.inode i).flushingSeq = (s.inode i).flushingSeq
  /-- An inode comes to the end of a list only behind earlier flushes. -/
  behind : ∀ mds l i, s'.flushingCaps mds = l ++ [i] →
    ∀ j ∈ l, (s'.inode j).flushingSeq < (s'.inode i).flushingSeq
  /-- A flushing inode does not lose its auth cap. -/
  auth : ∀ i, (s'.inode i).flushing ≠ ∅ → (s'.inode i).auth ≠ none
  /-- An acknowledgement comes in before the sixteen bits of its number are used again. -/
  prompt : ∀ mds i tid dirty, e = .flushAck mds i tid dirty →
    (s.inode i).lastFlushTid < tid + 2 ^ 16

end CapsClient

/-! ### One call of `check_caps` -/

variable {dirty : Mask}

namespace CapInode

/-- `check_caps` has started a flush. -/
structure StartsFlush (inode : CapInode) (sessions : List ℕ) (seq : ℕ) (c : Checking) : Prop where
  queued : c.queued = true
  auth : ∃ mds ∈ sessions, inode.auth = some mds ∧ c.inode.auth = some mds
  lastFlushSeq : c.lastFlushSeq = seq + 1
  flushingSeq : c.inode.flushingSeq = seq + 1
  dirty : c.inode.dirty = ∅
  flushing : c.inode.flushing = inode.flushing ∪ inode.dirty
  lastFlushTid : c.inode.lastFlushTid = inode.lastFlushTid + 1
  flushingTid : ∀ b, c.inode.flushingTid b =
    if b ∈ inode.dirty ∧ b.val < Mask.capBits then (inode.lastFlushTid + 1) % 2 ^ 16
    else inode.flushingTid b

/-- `check_caps` has started no flush. -/
structure StartsNone (inode : CapInode) (seq : ℕ) (c : Checking) : Prop where
  queued : c.queued = false
  auth : c.inode.auth = inode.auth
  lastFlushSeq : c.lastFlushSeq = seq
  same : inode.SameFlush c.inode

theorem sendCap_sameFlush (inode : CapInode) (mds : ℕ) (cap : InodeCap) (used want retain : Mask) :
    inode.SameFlush (inode.sendCap mds cap used want retain ∅).1 := by
  constructor <;> simp [sendCap]

theorem SameFlush.trans {a b c : CapInode} (h : a.SameFlush b) (h' : b.SameFlush c) :
    a.SameFlush c :=
  ⟨h'.dirty.trans h.dirty, h'.flushing.trans h.flushing, h'.flushingSeq.trans h.flushingSeq,
    h'.lastFlushTid.trans h.lastFlushTid, h'.flushingTid.trans h.flushingTid⟩

variable {inode : CapInode} {seq tid : ℕ} {c : Checking} {b : CapBit} {sessions : List ℕ}
  {new : CapInode}

theorem StartsFlush.send (h : inode.StartsFlush sessions seq c) (hsame : c.inode.SameFlush new)
    (hauth : new.auth = c.inode.auth) (sent : List CapMessage) :
    inode.StartsFlush sessions seq { c with inode := new, sent } where
  queued := h.queued
  auth := by
    obtain ⟨mds, hmem, hold, hnew⟩ := h.auth
    exact ⟨mds, hmem, hold, hauth.trans hnew⟩
  lastFlushSeq := h.lastFlushSeq
  flushingSeq := hsame.flushingSeq.trans h.flushingSeq
  dirty := hsame.dirty.trans h.dirty
  flushing := hsame.flushing.trans h.flushing
  lastFlushTid := hsame.lastFlushTid.trans h.lastFlushTid
  flushingTid b := (congrFun hsame.flushingTid b).trans (h.flushingTid b)

theorem StartsNone.send (h : inode.StartsNone seq c) (hsame : c.inode.SameFlush new)
    (hauth : new.auth = c.inode.auth) (sent : List CapMessage) :
    inode.StartsNone seq { c with inode := new, sent } :=
  ⟨h.queued, hauth.trans h.auth, h.lastFlushSeq, h.same.trans hsame⟩

theorem StartsNone.flush {mds} (h : inode.StartsNone seq c) (hmds : mds ∈ sessions)
    (hauth : c.inode.auth = some mds) (hdirty : c.inode.dirty ≠ ∅) (cap : InodeCap)
    (used want retain : Mask) (sent : List CapMessage) :
    inode.StartsFlush sessions seq ⟨((c.inode.markCapsFlushing (c.lastFlushSeq + 1)).sendCap mds cap
      used want retain c.inode.dirty).1, sent, c.lastFlushSeq + 1, true⟩ where
  queued := rfl
  auth := ⟨mds, hmds, h.auth.symm.trans hauth, hauth⟩
  lastFlushSeq := congrArg (· + 1) h.lastFlushSeq
  flushingSeq := congrArg (· + 1) h.lastFlushSeq
  dirty := rfl
  flushing := by rw [← h.same.flushing, ← h.same.dirty]; rfl
  lastFlushTid := by
    rw [← h.same.lastFlushTid]
    exact (if_neg hdirty).trans (if_neg hdirty)
  flushingTid b := by
    rw [← h.same.lastFlushTid, ← h.same.dirty, ← h.same.flushingTid]
    simp [sendCap, markCapsFlushing, hdirty]

theorem checkCaps_outcome {env} (hrun : inode.checkCaps env seq = .ok c) :
    inode.StartsNone seq c ∨ inode.StartsFlush env.sessions seq c := by
  refine checkCaps_invariant (P := fun c => inode.StartsNone seq c ∨
    inode.StartsFlush env.sessions seq c) hrun ?_ ?_
  · intro held
    exact .inl ⟨rfl, rfl, rfl, ⟨rfl, rfl, rfl, rfl, rfl⟩⟩
  intro c c' mds hround hc
  unfold checkCap at hround
  cases hfind : c.inode.caps.find? mds with
  | none =>
    rw [hfind] at hround
    rw [← ok.inj hround]
    exact hc
  | some cap =>
    rw [hfind] at hround
    obtain ⟨_, hassert, hround⟩ := bind_eq_ok.mp hround
    have hmds : mds ∈ env.sessions := assertThat_eq_ok.mp hassert
    dsimp only at hround
    split at hround
    · split at hround
      · next hflush =>
        rw [← ok.inj hround]
        rcases hc with hc | hc
        · exact .inr (hc.flush hmds hflush.1 hflush.2 cap _ _ _ _)
        · exact absurd hc.dirty hflush.2
      · rw [← ok.inj hround]
        have hsame := c.inode.sendCap_sameFlush mds cap (c.inode.usedOf inode.getCapsUsed mds)
          inode.capsWanted (inode.retained env.unmounting)
        exact hc.imp (fun h => h.send hsame rfl _) fun h => h.send hsame rfl _
    · rw [← ok.inj hround]
      exact hc

/-- A message with at least the number `tid` carried the bit, and it was the last one to. -/
def SentSince (inode : CapInode) (tid : ℕ) (b : CapBit) : Prop :=
  b.val < Mask.capBits → ∃ t, tid ≤ t ∧ t ≤ inode.lastFlushTid ∧ inode.flushingTid b = t % 2 ^ 16

/-- The flush goes on, though its bits may be sent again. -/
structure KeepsFlush (inode inode' : CapInode) : Prop where
  flushing : inode'.flushing = inode.flushing
  flushingSeq : inode'.flushingSeq = inode.flushingSeq
  sent : ∀ tid b, inode.SentSince tid b → inode'.SentSince tid b

variable {inode' : CapInode}

theorem SameFlush.keeps (h : inode.SameFlush inode') : inode.KeepsFlush inode' := by
  refine ⟨h.flushing, h.flushingSeq, fun tid b hb hlt => ?_⟩
  rw [h.lastFlushTid, h.flushingTid]
  exact hb hlt

theorem SentSince.next (h : inode.SentSince tid b) (flush : Mask)
    (hlast : inode'.lastFlushTid = inode.lastFlushTid + 1)
    (htid : inode'.flushingTid b =
      if b ∈ flush ∧ b.val < Mask.capBits then (inode.lastFlushTid + 1) % 2 ^ 16
      else inode.flushingTid b) :
    inode'.SentSince tid b := by
  intro hlt
  obtain ⟨t, hle, hlast', heq⟩ := h hlt
  by_cases hb : b ∈ flush ∧ b.val < Mask.capBits
  · rw [if_pos hb] at htid
    exact ⟨inode.lastFlushTid + 1, by omega, hlast.ge, htid⟩
  · rw [if_neg hb] at htid
    exact ⟨t, hle, by omega, htid.trans heq⟩

theorem flushCaps_keeps {mds} (hrun : inode.flushCaps mds = .ok inode') :
    inode.KeepsFlush inode' ∧ inode'.auth = inode.auth := by
  unfold CapInode.flushCaps at hrun
  split at hrun
  · next a cap _ _ =>
    obtain ⟨_, -, hsend⟩ := bind_eq_ok.mp hrun
    cases hsend
    refine ⟨?_, rfl⟩
    by_cases hempty : inode.flushing = ∅
    · rw [hempty]
      exact (inode.sendCap_sameFlush mds cap _ _ _).keeps
    · refine ⟨rfl, rfl, fun tid b hb => hb.next inode.flushing ?_ ?_⟩
      · exact (if_neg hempty).trans (if_neg hempty)
      · simp [sendCap, hempty]
  · cases hrun

/-- An acknowledgement that cleans a bit is for the last message that carried it. -/
theorem SentSince.le_of_cleaned {ack} (h : inode.SentSince tid b)
    (hb : b ∈ inode.cleaned ack dirty) (hack : inode.lastFlushTid < ack + 2 ^ 16) :
    b ∈ dirty ∧ tid ≤ ack := by
  obtain ⟨hmem, hlt, heq⟩ := Finset.mem_filter.mp hb
  obtain ⟨t, hle, hlast, hmod⟩ := h hlt
  refine ⟨hmem, hle.trans ?_⟩
  omega

end CapInode

namespace CapsClient

variable {s s' t u : CapsClient} {i mds : ℕ}

/-! ### Lists -/

@[simp] theorem relisted_relisted (lists : ℕ → List ℕ) (i : ℕ) (dest dest' : Option ℕ) :
    relisted (relisted lists i dest) i dest' = relisted lists i dest' := by
  funext mds
  unfold relisted
  split_ifs <;> simp

variable {lists : ℕ → List ℕ}

theorem mem_relisted_self : i ∈ relisted lists i (some mds) mds := by
  simp [relisted]

theorem mem_relisted_of_ne {dest} {j} (hj : j ≠ i) (h : j ∈ lists mds) :
    j ∈ relisted lists i dest mds := by
  unfold relisted
  split_ifs <;> simp [h, hj]

def Listed (s : CapsClient) (i : ℕ) : Prop :=
  ∃ mds ∈ s.sessions, (s.inode i).auth = some mds ∧ i ∈ s.flushingCaps mds

def Queued (s : CapsClient) (i : ℕ) : Prop := (s.inode i).flushing ≠ ∅ → s.Listed i

theorem Listed.isOnList (h : s.Listed i) : (s.inode i).auth.isSome && s.isOnList i := by
  obtain ⟨mds, hmds, hauth, hmem⟩ := h
  simp only [hauth, Option.isSome_some, Bool.true_and, CapsClient.isOnList, any_eq_true,
    decide_eq_true_eq]
  exact ⟨mds, hmds, hmem⟩

/-! ### What a handler does to one inode -/

/-- A handler that is not for an acknowledgement changes one inode, moves it on the lists and
starts at most one flush. -/
structure Effect (s s' : CapsClient) (i : ℕ) : Prop where
  others : ∀ j, j ≠ i → s'.inode j = s.inode j
  sessions : s.sessions ⊆ s'.sessions
  acks : s'.acks = s.acks
  place : (s'.flushingCaps = s.flushingCaps ∧ (s'.inode i).flushingSeq = (s.inode i).flushingSeq) ∨
    ∃ dest, s'.flushingCaps = relisted s.flushingCaps i dest
  flushing : (s.inode i).flushing ⊆ (s'.inode i).flushing
  sent : ∀ tid b, (s.inode i).SentSince tid b → (s'.inode i).SentSince tid b
  progress : (s'.started = s.started ∧ (s'.inode i).flushingSeq = (s.inode i).flushingSeq ∧
      s'.lastFlushSeq = s.lastFlushSeq) ∨
    ∃ r, s'.started = r :: s.started ∧ r.ino = i ∧ r.seq = (s'.inode i).flushingSeq ∧
      (s'.inode i).flushingSeq = s'.lastFlushSeq ∧ s.lastFlushSeq ≤ s'.lastFlushSeq ∧
      r.caps ⊆ (s'.inode i).flushing ∧ ∀ b ∈ r.caps, (s'.inode i).SentSince r.tid b

namespace Effect

theorem seq_of_started (h : s.Effect s' i) (hs : s'.started = s.started) :
    (s'.inode i).flushingSeq = (s.inode i).flushingSeq ∧ s'.lastFlushSeq = s.lastFlushSeq := by
  rcases h.progress with h | ⟨r, hr, -⟩
  · exact h.2
  · rw [hs] at hr
    exact absurd hr (ne_cons_self)

theorem trans (h : s.Effect t i) (h' : t.Effect u i)
    (hone : t.started = s.started ∨ u.started = t.started) : s.Effect u i where
  others j hj := (h'.others j hj).trans (h.others j hj)
  sessions := List.Subset.trans h.sessions h'.sessions
  acks := h'.acks.trans h.acks
  place := by
    rcases h'.place with ⟨hl', hs'⟩ | ⟨dest, hl'⟩
    · rcases h.place with ⟨hl, hs⟩ | ⟨dest, hl⟩
      · exact .inl ⟨hl'.trans hl, hs'.trans hs⟩
      · exact .inr ⟨dest, hl'.trans hl⟩
    · rcases h.place with ⟨hl, -⟩ | ⟨dest', hl⟩
      · exact .inr ⟨dest, by rw [hl', hl]⟩
      · exact .inr ⟨dest, by rw [hl', hl, relisted_relisted]⟩
  flushing := h.flushing.trans h'.flushing
  sent tid b hb := h'.sent tid b (h.sent tid b hb)
  progress := by
    rcases hone with hone | hone
    · obtain ⟨hseq, hlast⟩ := h.seq_of_started hone
      rw [← hone, ← hseq, ← hlast]
      exact h'.progress
    · obtain ⟨hseq, hlast⟩ := h'.seq_of_started hone
      rw [hone, hseq, hlast]
      refine h.progress.imp id ?_
      rintro ⟨r, hr, hino, hnum, hnew, hle, hcaps, hsent⟩
      exact ⟨r, hr, hino, hnum, hnew, hle, hcaps.trans h'.flushing,
        fun b hb => h'.sent _ b (hsent b hb)⟩

end Effect

variable {j tid : ℕ} {env : CheckEnv} {m : CapMove} {r : CapFlush} {inode : CapInode}

theorem setInode_inode (s : CapsClient) (i : ℕ) (inode : CapInode) :
    (s.setInode i inode).inode i = inode := Function.update_self ..

theorem setInode_inode_of_ne (hj : j ≠ i) (s : CapsClient) (inode : CapInode) :
    (s.setInode i inode).inode j = s.inode j := Function.update_of_ne hj ..

theorem effect_of_keeps (hinode : s'.inode = (s.setInode i inode).inode)
    (h : (s.inode i).KeepsFlush inode) (hplace : s'.flushingCaps = s.flushingCaps ∨
      ∃ dest, s'.flushingCaps = relisted s.flushingCaps i dest)
    (hsessions : s.sessions ⊆ s'.sessions) (hacks : s'.acks = s.acks)
    (hstarted : s'.started = s.started) (hlast : s'.lastFlushSeq = s.lastFlushSeq) :
    s.Effect s' i := by
  have hself : s'.inode i = inode := hinode ▸ setInode_inode s i inode
  rw [← hself] at h
  exact ⟨fun j hj => hinode ▸ setInode_inode_of_ne hj s inode, hsessions, hacks,
    hplace.imp (fun hl => ⟨hl, h.flushingSeq⟩) id, h.flushing.ge, h.sent,
    .inl ⟨hstarted, h.flushingSeq, hlast⟩⟩

theorem setInode_effect (h : (s.inode i).KeepsFlush inode) : s.Effect (s.setInode i inode) i :=
  effect_of_keeps rfl h (.inl rfl) (List.Subset.refl _) rfl rfl rfl

theorem Effect.refl (s : CapsClient) (i : ℕ) : s.Effect s i :=
  effect_of_keeps (Function.update_eq_self i _).symm ⟨rfl, rfl, fun _ _ => id⟩ (.inl rfl)
    (List.Subset.refl _) rfl rfl rfl

/-! ### The handlers -/

theorem setCap_effect (s : CapsClient) (i mds : ℕ) (cap : InodeCap) (ids : CapIds) :
    s.Effect (s.setCap i mds cap ids) i :=
  effect_of_keeps rfl ⟨rfl, rfl, fun _ _ => id⟩ (.inl rfl) (List.Subset.refl _) rfl rfl rfl

theorem setCap_queued (h : s.Queued i) (mds : ℕ) (cap : InodeCap) (ids : CapIds) :
    (s.setCap i mds cap ids).Queued i := by
  unfold Queued Listed setCap
  rw [setInode_inode]
  exact h

theorem setAuth_effect (s : CapsClient) (i mds : ℕ) : s.Effect (s.setAuth i mds) i := by
  refine effect_of_keeps rfl ⟨rfl, rfl, fun _ _ => id⟩ ?_ (List.Subset.refl _) rfl rfl rfl
  by_cases hon : ((s.inode i).auth.isSome && s.isOnList i) = true
  · exact .inr ⟨some mds, if_pos hon⟩
  · exact .inl (if_neg hon)

theorem setAuth_queued (h : s.Queued i) (hmds : mds ∈ s.sessions) : (s.setAuth i mds).Queued i := by
  intro hflushing
  have hinode : (s.setAuth i mds).inode i = { s.inode i with auth := some mds } :=
    setInode_inode s i _
  rw [hinode] at hflushing
  refine ⟨mds, hmds, by rw [hinode], ?_⟩
  have hlist : (s.setAuth i mds).flushingCaps = relisted s.flushingCaps i (some mds) :=
    if_pos (h hflushing).isOnList
  rw [hlist]
  exact mem_relisted_self

theorem checkCaps_effect (hrun : s.checkCaps i env = .ok s') :
    s.Effect s' i ∧ (s.Queued i → s'.Queued i) := by
  obtain ⟨c, hc, hrun⟩ := bind_eq_ok.mp hrun
  rcases checkCaps_outcome hc with hnone | hflush
  · rw [if_neg (by simp [hnone.queued])] at hrun
    cases hrun
    constructor
    · exact effect_of_keeps rfl hnone.same.keeps (.inl rfl) (List.Subset.refl _) rfl rfl
        hnone.lastFlushSeq
    · unfold Queued Listed
      rw [setInode_inode, hnone.same.flushing, hnone.auth]
      exact id
  · rw [if_pos hflush.queued] at hrun
    cases hrun
    obtain ⟨mds, hmds, -, hauth⟩ := hflush.auth
    constructor
    · refine ⟨fun j hj => setInode_inode_of_ne hj s _, List.Subset.refl _, rfl, .inr ⟨_, rfl⟩,
        ?_, ?_, .inr ⟨_, rfl, rfl, ?_⟩⟩
      all_goals dsimp only; rw [setInode_inode]
      · rw [hflush.flushing]
        exact Finset.subset_union_left
      · intro tid b hb
        exact hb.next _ hflush.lastFlushTid (hflush.flushingTid b)
      · refine ⟨hflush.lastFlushSeq.trans hflush.flushingSeq.symm,
          hflush.flushingSeq.trans hflush.lastFlushSeq.symm, ?_, ?_, ?_⟩
        · rw [hflush.lastFlushSeq]
          exact Nat.le_succ _
        · rw [hflush.flushing]
          exact Finset.subset_union_right
        · intro b hb hlt
          refine ⟨c.inode.lastFlushTid, le_rfl, le_rfl, ?_⟩
          rw [hflush.flushingTid, if_pos ⟨hb, hlt⟩, hflush.lastFlushTid]
    · intro _ _
      refine ⟨mds, hmds, ?_, ?_⟩
      · rw [setInode_inode]
        exact hauth
      · rw [hauth]
        exact mem_relisted_self

variable {cap : InodeCap}

section

variable {ids : CapIds} {issued : Mask} {isAuth : Bool}

theorem updateCap_effect (hrun : s.updateCap i mds cap ids issued isAuth env = .ok s')
    (hmds : mds ∈ s.sessions) : s.Effect s' i ∧ (s.Queued i → s'.Queued i) := by
  unfold updateCap at hrun
  dsimp only at hrun
  obtain ⟨t, ht⟩ : ∃ t, t = if s.changesAuth i mds ids.mseq isAuth then s.setAuth i mds else s :=
    ⟨_, rfl⟩
  rw [← ht] at hrun
  have hfirst : s.Effect t i ∧ t.started = s.started ∧ (s.Queued i → t.Queued i) := by
    rw [ht]
    split_ifs
    · exact ⟨setAuth_effect s i mds, rfl, fun hq => setAuth_queued hq hmds⟩
    · exact ⟨.refl s i, rfl, id⟩
  obtain ⟨heffect, hstarted, hqueued⟩ := hfirst
  have heffect := heffect.trans (setCap_effect t i mds
    ⟨cap.issued ∪ issued, cap.implemented ∪ issued, cap.wanted⟩ ids) (.inl hstarted)
  split_ifs at hrun
  · obtain ⟨hcheck, hq⟩ := checkCaps_effect hrun
    exact ⟨heffect.trans hcheck (.inl hstarted), fun h => hq (setCap_queued (hqueued h) _ _ _)⟩
  · cases hrun
    exact ⟨heffect, fun h => setCap_queued (hqueued h) _ _ _⟩

theorem addUpdateCap_effect (hrun : s.addUpdateCap i mds ids issued isAuth env = .ok s')
    (hmds : mds ∈ s.sessions) : s.Effect s' i ∧ (s.Queued i → s'.Queued i) := by
  unfold addUpdateCap at hrun
  cases hfind : (s.inode i).caps.find? mds with
  | none =>
    rw [hfind] at hrun
    exact updateCap_effect hrun hmds
  | some cap =>
    rw [hfind] at hrun
    dsimp only at hrun
    split_ifs at hrun
    · obtain ⟨_, -, hrun⟩ := bind_eq_ok.mp hrun
      obtain ⟨_, -, hrun⟩ := bind_eq_ok.mp hrun
      exact updateCap_effect hrun hmds
    · exact updateCap_effect hrun hmds

end

def QueuedAuth (s : CapsClient) (i : ℕ) : Prop :=
  (s.inode i).flushing ≠ ∅ → (s.inode i).auth ≠ none → s.Listed i

theorem removeCap_effect (s : CapsClient) (i mds : ℕ) :
    s.Effect (s.removeCap i mds) i ∧ (s.removeCap i mds).started = s.started ∧
      (s.Queued i → (s.removeCap i mds).QueuedAuth i) := by
  unfold removeCap
  split_ifs with hauth
  · refine ⟨effect_of_keeps rfl ⟨rfl, rfl, fun _ _ => id⟩
      (.inr ⟨none, rfl⟩) (List.Subset.refl _) rfl
      rfl rfl, rfl, ?_⟩
    intro _ _ hnone
    rw [setInode_inode] at hnone
    exact absurd rfl hnone
  · refine ⟨setInode_effect ⟨rfl, rfl, fun _ _ => id⟩, rfl, ?_⟩
    unfold Queued QueuedAuth Listed
    rw [setInode_inode]
    exact fun h hflushing _ => h hflushing

theorem openSession_effect (s : CapsClient) (mds i : ℕ) : s.Effect (s.openSession mds) i := by
  unfold openSession
  split_ifs
  · exact .refl s i
  · exact { Effect.refl s i with sessions := subset_append_left _ _ }

theorem openSession_queued (h : s.Queued i) (mds : ℕ) : (s.openSession mds).Queued i := by
  unfold openSession
  split_ifs
  · exact h
  · intro hflushing
    obtain ⟨m, hm, hlisted⟩ := h hflushing
    exact ⟨m, mem_append_left _ hm, hlisted⟩

theorem mem_openSession (s : CapsClient) (mds : ℕ) : mds ∈ (s.openSession mds).sessions := by
  unfold openSession
  split_ifs with h
  · exact h
  · simp

theorem exportTo_effect (hrun : s.exportTo i mds cap m env = .ok s')
    (hpeer : m.peerMds ∈ s.sessions) : s.Effect s' i ∧ (s.Queued i → s'.Queued i) := by
  unfold exportTo at hrun
  cases hfind : (s.inode i).caps.find? m.peerMds with
  | none =>
    rw [hfind] at hrun
    exact addUpdateCap_effect hrun hpeer
  | some tcap =>
    rw [hfind] at hrun
    split_ifs at hrun
    · cases hrun
      exact ⟨(setCap_effect s i _ _ _).trans (setAuth_effect _ i _) (.inl rfl),
        fun h => setAuth_queued (setCap_queued h _ _ _) hpeer⟩
    · cases hrun
      exact ⟨setCap_effect s i _ _ _, fun h => setCap_queued h _ _ _⟩
    · cases hrun
      exact ⟨.refl s i, id⟩

theorem Queued.queuedAuth (h : s.Queued i) : s.QueuedAuth i := fun hflushing _ => h hflushing

theorem handleCapExport_effect (hrun : s.handleCapExport mds i m env = .ok s') :
    s.Effect s' i ∧ (s.Queued i → s'.QueuedAuth i) := by
  unfold handleCapExport at hrun
  cases hfind : (s.inode i).caps.find? mds with
  | none =>
    rw [hfind] at hrun
    cases hrun
    exact ⟨.refl s i, Queued.queuedAuth⟩
  | some cap =>
    rw [hfind] at hrun
    split_ifs at hrun with hid hpeer
    · cases hrun
      exact ⟨.refl s i, Queued.queuedAuth⟩
    · obtain ⟨t, ht, hrun⟩ := bind_eq_ok.mp hrun
      cases hrun
      obtain ⟨hmove, hq⟩ := exportTo_effect ht (mem_openSession s m.peerMds)
      obtain ⟨hremove, hstarted, hq'⟩ := removeCap_effect t i mds
      have hopen := openSession_effect s m.peerMds i
      have hquiet : (s.openSession m.peerMds).started = s.started := by
        unfold openSession
        split_ifs <;> rfl
      exact ⟨(hopen.trans hmove (.inl hquiet)).trans hremove (.inr hstarted),
        fun h => hq' (hq (openSession_queued h _))⟩
    · obtain ⟨t, ht, hrun⟩ := bind_eq_ok.mp hrun
      cases ht
      cases hrun
      obtain ⟨hremove, -, hq⟩ := removeCap_effect s i mds
      exact ⟨hremove, hq⟩

theorem handleCapImport_effect
    (hrun : s.handleCapImport mds i m env = .ok s') (hmds : mds ∈ s.sessions) :
    s.Effect s' i ∧ (s.Queued i → s'.QueuedAuth i) := by
  obtain ⟨t, ht, hrun⟩ := bind_eq_ok.mp hrun
  obtain ⟨hadd, hqadd⟩ := addUpdateCap_effect ht hmds
  dsimp only at hrun
  obtain ⟨u, hu⟩ : ∃ u, u = if m.peerCapId ≠ 0 ∧ ((t.inode i).caps.find? m.peerMds).isSome ∧
      (t.ids i m.peerMds).capId = m.peerCapId then t.removeCap i m.peerMds else t := ⟨_, rfl⟩
  rw [← hu] at hrun
  have hdrop : t.Effect u i ∧ u.started = t.started ∧ (t.Queued i → u.QueuedAuth i) := by
    rw [hu]
    split_ifs
    · exact removeCap_effect t i m.peerMds
    · exact ⟨.refl t i, rfl, Queued.queuedAuth⟩
  obtain ⟨hdrop, hstarted, hqdrop⟩ := hdrop
  have heffect := hadd.trans hdrop (.inr hstarted)
  split_ifs at hrun
  · obtain ⟨inode, hinode, hrun⟩ := bind_eq_ok.mp hrun
    cases hrun
    obtain ⟨hkeeps, hauth⟩ := flushCaps_keeps hinode
    refine ⟨heffect.trans (setInode_effect hkeeps) (.inr rfl), fun h => ?_⟩
    unfold QueuedAuth Listed
    rw [setInode_inode, hauth, hkeeps.flushing]
    exact hqdrop (hqadd h)
  · cases hrun
    exact ⟨heffect, fun h => hqdrop (hqadd h)⟩

/-! ### The invariant -/

structure Pending (s : CapsClient) (r : CapFlush) (b : CapBit) : Prop where
  flushing : b ∈ (s.inode r.ino).flushing
  seq : (s.inode r.ino).flushingSeq = r.seq
  sent : (s.inode r.ino).SentSince r.tid b

/-- The lists are in the order of the flushes, and hold every inode with a flush that is not
acknowledged. -/
structure Inv (s : CapsClient) : Prop where
  ordered : ∀ mds, (s.flushingCaps mds).Pairwise fun j k =>
    (s.inode j).flushingSeq < (s.inode k).flushingSeq
  bound : ∀ i, (s.inode i).flushingSeq ≤ s.lastFlushSeq
  queued : ∀ i, s.Queued i
  pending : ∀ r ∈ s.started, ∀ b ∈ r.caps, s.AckedBit r b ∨ s.Pending r b

theorem Initial.inv (h : s.Initial) : s.Inv where
  ordered mds := by
    rw [h.flushingCaps mds]
    exact List.Pairwise.nil
  bound i := by
    rw [h.flushingSeq i]
    exact Nat.zero_le _
  queued i hne := absurd (h.flushing i) hne
  pending r hr := by
    rw [h.started] at hr
    cases hr

theorem ordered_filter {l : List ℕ} {seq : ℕ → ℕ} (seq' : ℕ → ℕ)
    (h : l.Pairwise fun j k => seq j < seq k) (hseq : ∀ j, j ≠ i → seq' j = seq j) :
    (l.filter (· ≠ i)).Pairwise fun j k => seq' j < seq' k := by
  refine (h.filter _).imp_of_mem ?_
  intro j k hj hk hlt
  rw [hseq j (by simpa using (mem_filter.mp hj).2), hseq k (by simpa using (mem_filter.mp hk).2)]
  exact hlt

section

variable (h : s.Effect s' i)

include h

theorem Effect.flushingSeq_of_ne (hj : j ≠ i) :
    (s'.inode j).flushingSeq = (s.inode j).flushingSeq := by rw [h.others j hj]

theorem Effect.flushingSeq_eq (hseq : (s'.inode i).flushingSeq = (s.inode i).flushingSeq) (j : ℕ) :
    (s'.inode j).flushingSeq = (s.inode j).flushingSeq := by
  by_cases hj : j = i
  · rw [hj]
    exact hseq
  · exact h.flushingSeq_of_ne hj

theorem Effect.ordered (hs : s.Inv) (hbehind : ∀ mds l j, s'.flushingCaps mds = l ++ [j] →
      ∀ k ∈ l, (s'.inode k).flushingSeq < (s'.inode j).flushingSeq) (mds : ℕ) :
    (s'.flushingCaps mds).Pairwise fun j k =>
      (s'.inode j).flushingSeq < (s'.inode k).flushingSeq := by
  rcases h.place with ⟨hlists, hseq⟩ | ⟨dest, hlists⟩
  · simp only [hlists, h.flushingSeq_eq hseq]
    exact hs.ordered mds
  · have hrest := ordered_filter (fun j => (s'.inode j).flushingSeq) (hs.ordered mds)
      fun j hj => h.flushingSeq_of_ne hj
    by_cases hdest : dest = some mds
    · have hlist : s'.flushingCaps mds = (s.flushingCaps mds).filter (· ≠ i) ++ [i] := by
        rw [hlists, relisted, if_pos hdest]
      have hlast := hbehind mds _ i hlist
      rw [hlist]
      refine pairwise_append.mpr ⟨hrest, pairwise_singleton _ _, ?_⟩
      intro k hk j hj
      rw [mem_singleton.mp hj]
      exact hlast k hk
    · rw [hlists, relisted, if_neg hdest]
      exact hrest

theorem Effect.bound (hs : s.Inv) (j : ℕ) : (s'.inode j).flushingSeq ≤ s'.lastFlushSeq := by
  have hj := hs.bound j
  rcases h.progress with ⟨-, hseq, hlast⟩ | ⟨r, -, -, -, hnew, hle, -⟩
  · rw [h.flushingSeq_eq hseq, hlast]
    exact hj
  · by_cases hji : j = i
    · rw [hji]
      exact hnew.le
    · rw [h.flushingSeq_of_ne hji]
      omega

theorem Effect.queued_of_ne (hj : j ≠ i) (hq : s.Queued j) : s'.Queued j := by
  unfold Queued Listed
  rw [h.others j hj]
  intro hflushing
  obtain ⟨mds, hmds, hauth, hmem⟩ := hq hflushing
  refine ⟨mds, h.sessions hmds, hauth, ?_⟩
  rcases h.place with ⟨hlists, -⟩ | ⟨dest, hlists⟩
  · rw [hlists]
    exact hmem
  · rw [hlists]
    exact mem_relisted_of_ne hj hmem

theorem Effect.pending {b} (hp : s.Pending r b)
    (honce : (s.inode i).flushing ≠ ∅ → (s'.inode i).flushingSeq = (s.inode i).flushingSeq) :
    s'.Pending r b := by
  by_cases hi : r.ino = i
  · subst hi
    refine ⟨h.flushing hp.flushing, ?_, h.sent _ b hp.sent⟩
    rw [honce (Finset.ne_empty_of_mem hp.flushing)]
    exact hp.seq
  · constructor <;> rw [h.others _ hi]
    · exact hp.flushing
    · exact hp.seq
    · exact hp.sent

/-- A handler keeps the invariant if it does not flush a flushing inode again, keeps the lists in
order, and leaves the inode listed. -/
theorem Effect.inv (hs : s.Inv)
    (honce : (s.inode i).flushing ≠ ∅ → (s'.inode i).flushingSeq = (s.inode i).flushingSeq)
    (hordered : ∀ mds, (s'.flushingCaps mds).Pairwise
      fun j k => (s'.inode j).flushingSeq < (s'.inode k).flushingSeq)
    (hqueued : s'.Queued i) : s'.Inv where
  ordered := hordered
  bound := h.bound hs
  queued j := by
    by_cases hj : j = i
    · rw [hj]
      exact hqueued
    · exact h.queued_of_ne hj (hs.queued j)
  pending r hr b hb := by
    have hold : r ∈ s.started → s'.AckedBit r b ∨ s'.Pending r b := by
      intro hr
      refine (hs.pending r hr b hb).imp ?_ fun hp => h.pending hp honce
      unfold AckedBit
      rw [h.acks]
      exact id
    rcases h.progress with ⟨hstarted, -⟩ | ⟨new, hstarted, hino, hseq, -, -, hcaps, hsent⟩
    · exact hold (hstarted ▸ hr)
    · rw [hstarted] at hr
      rcases mem_cons.mp hr with rfl | hr
      · right
        subst hino
        exact ⟨hcaps hb, hseq.symm, hsent b hb⟩
      · exact hold hr

end

theorem Inv.setInode (hs : s.Inv) (h : (s.inode i).KeepsFlush inode)
    (hauth : inode.auth = (s.inode i).auth) : (s.setInode i inode).Inv := by
  have heffect := setInode_effect h
  obtain ⟨hseq, -⟩ := heffect.seq_of_started rfl
  refine heffect.inv hs (fun _ => hseq) (fun mds => ?_) ?_
  · simp only [heffect.flushingSeq_eq hseq]
    exact hs.ordered mds
  · unfold Queued Listed
    rw [setInode_inode, hauth, h.flushing]
    exact hs.queued i

theorem Inv.flushCaps (hs : s.Inv) (hrun : s.flushCaps mds i = .ok s') : s'.Inv := by
  obtain ⟨inode, hinode, hrun⟩ := bind_eq_ok.mp hrun
  cases hrun
  obtain ⟨hkeeps, hauth⟩ := flushCaps_keeps hinode
  exact hs.setInode hkeeps hauth

theorem Inv.kickFlushingCaps (hs : s.Inv) (hrun : s.kickFlushingCaps mds = .ok s') : s'.Inv := by
  refine foldlM_invariant hrun ?_ hs
  intro i _ t t' ht hstep
  split_ifs at hstep
  · exact ht.flushCaps hstep
  · rw [← ok.inj hstep]
    exact ht

/-- The cleaned bits of an inode are not flushing any more, and it leaves its list with the last
of them. -/
def clean (s : CapsClient) (i tid : ℕ) (dirty : Mask) : CapsClient :=
  let flushing := (s.inode i).flushing \ (s.inode i).cleaned tid dirty
  { s.setInode i { s.inode i with flushing } with
    flushingCaps := if flushing = ∅ then relisted s.flushingCaps i none else s.flushingCaps
    acks := ⟨i, tid, dirty⟩ :: s.acks }

theorem clean_inode (s : CapsClient) (i tid : ℕ) (dirty : Mask) : (s.clean i tid dirty).inode i =
      { s.inode i with flushing := (s.inode i).flushing \ (s.inode i).cleaned tid dirty } :=
  setInode_inode s i _

theorem clean_inode_of_ne (hj : j ≠ i) (s : CapsClient) (tid : ℕ) (dirty : Mask) :
    (s.clean i tid dirty).inode j = s.inode j := setInode_inode_of_ne hj s _

theorem clean_flushingSeq (s : CapsClient) (i tid : ℕ) (dirty : Mask) (j : ℕ) :
    ((s.clean i tid dirty).inode j).flushingSeq = (s.inode j).flushingSeq := by
  by_cases hj : j = i
  · rw [hj, clean_inode]
  · rw [clean_inode_of_ne hj]

theorem AckedBit.logged {b} (h : s.AckedBit r b) {a}
    (hacks : s'.acks = a :: s.acks) : s'.AckedBit r b := by
  obtain ⟨a', ha', hacked⟩ := h
  exact ⟨a', hacks ▸ mem_cons_of_mem _ ha', hacked⟩

theorem Inv.clean (hs : s.Inv) (dirty : Mask)
    (hprompt : (s.inode i).lastFlushTid < tid + 2 ^ 16) : (s.clean i tid dirty).Inv where
  ordered mds := by
    simp only [clean_flushingSeq]
    unfold CapsClient.clean
    dsimp only
    split_ifs
    · exact ordered_filter _ (hs.ordered mds) fun _ _ => rfl
    · exact hs.ordered mds
  bound j := by
    rw [clean_flushingSeq]
    exact hs.bound j
  queued j hne := by
    by_cases hj : j = i
    · subst hj
      have hinode := clean_inode s j tid dirty
      rw [hinode] at hne
      obtain ⟨mds, hmds, hauth, hmem⟩ := hs.queued j fun hempty => hne (by simp [hempty])
      refine ⟨mds, hmds, by rw [hinode]; exact hauth, ?_⟩
      have hlists : (s.clean j tid dirty).flushingCaps = s.flushingCaps := if_neg hne
      rw [hlists]
      exact hmem
    · rw [clean_inode_of_ne hj] at hne
      obtain ⟨mds, hmds, hauth, hmem⟩ := hs.queued j hne
      refine ⟨mds, hmds, by rw [clean_inode_of_ne hj]; exact hauth, ?_⟩
      unfold CapsClient.clean
      dsimp only
      split_ifs
      · exact mem_relisted_of_ne hj hmem
      · exact hmem
  pending r hr b hb := by
    rcases hs.pending r hr b hb with hacked | hp
    · exact .inl (hacked.logged rfl)
    · by_cases hi : r.ino = i
      · subst hi
        by_cases hclean : b ∈ (s.inode r.ino).cleaned tid dirty
        · obtain ⟨hdirty, hle⟩ := hp.sent.le_of_cleaned hclean hprompt
          exact .inl ⟨_, mem_cons_self, rfl, hdirty, hle⟩
        · right
          constructor <;> rw [clean_inode]
          · exact Finset.mem_sdiff.mpr ⟨hp.flushing, hclean⟩
          · exact hp.seq
          · exact hp.sent
      · right
        constructor <;> rw [clean_inode_of_ne hi]
        · exact hp.flushing
        · exact hp.seq
        · exact hp.sent

theorem handleCapFlushAck_cases (s : CapsClient) (mds i tid : ℕ) (dirty : Mask) :
    s.handleCapFlushAck mds i tid dirty = { s with acks := ⟨i, tid, dirty⟩ :: s.acks } ∨
      s.handleCapFlushAck mds i tid dirty = s.clean i tid dirty := by
  unfold handleCapFlushAck CapInode.handleCapFlushAck
  by_cases hcap : mds ∈ s.sessions ∧ ((s.inode i).caps.find? mds).isSome
  · rw [if_pos hcap]
    by_cases hnone : (s.inode i).cleaned tid dirty = ∅ ∨ (s.inode i).flushing = ∅
    · left
      rw [if_pos hnone]
      simp [setInode]
    · right
      rw [if_neg hnone]
      simp [setInode, clean]
  · exact .inl (if_neg hcap)

theorem Inv.handleCapFlushAck (hs : s.Inv) (dirty : Mask)
    (hprompt : (s.inode i).lastFlushTid < tid + 2 ^ 16) :
    (s.handleCapFlushAck mds i tid dirty).Inv := by
  rcases s.handleCapFlushAck_cases mds i tid dirty with heq | heq
  · rw [heq]
    refine ⟨hs.ordered, hs.bound, hs.queued, ?_⟩
    intro r hr b hb
    exact (hs.pending r hr b hb).imp (fun h => h.logged rfl)
      fun hp => ⟨hp.flushing, hp.seq, hp.sent⟩
  · rw [heq]
    exact hs.clean dirty hprompt

/-! ### Every history -/

variable {e : CapsEvent}

theorem Meets.inv (hmeets : s.Meets e s') (h : s.Effect s' i) (hs : s.Inv)
    (hqueued : s.Queued i → s'.QueuedAuth i) : s'.Inv :=
  h.inv hs (hmeets.once i) (h.ordered hs hmeets.behind) fun hne =>
    hqueued (hs.queued i) hne (hmeets.auth i hne)

theorem Meets.inv_of_session {run : Run CapsClient} (hmeets : s.Meets e s') (hs : s.Inv)
    (hrun : (if mds ∈ s.sessions then run else .ok s) = .ok s')
    (heffect : run = .ok s' → mds ∈ s.sessions → s.Effect s' i ∧ (s.Queued i → s'.QueuedAuth i)) :
    s'.Inv := by
  split_ifs at hrun with hmds
  · obtain ⟨heffect, hq⟩ := heffect hrun hmds
    exact hmeets.inv heffect hs hq
  · cases hrun
    exact hs

theorem Step.inv (h : s.Step e s') (hmeets : s.Meets e s') (hs : s.Inv) : s'.Inv := by
  have hrun := h.run
  cases e with
  | markCapsDirty i mask =>
    cases hrun
    exact hs.setInode ⟨rfl, rfl, fun _ _ => id⟩ rfl
  | checkCaps i env =>
    obtain ⟨heffect, hq⟩ := checkCaps_effect hrun
    exact hmeets.inv heffect hs fun hq' => (hq hq').queuedAuth
  | flushCaps mds i => exact hs.flushCaps hrun
  | kickFlushingCaps mds => exact hs.kickFlushingCaps hrun
  | flushAck mds i tid dirty =>
    cases hrun
    exact hs.handleCapFlushAck dirty (hmeets.prompt mds i tid dirty rfl)
  | capExport mds i m env =>
    exact hmeets.inv_of_session hs hrun fun hrun _ => handleCapExport_effect hrun
  | capImport mds i m env => exact hmeets.inv_of_session hs hrun handleCapImport_effect
  | addUpdateCap mds i ids issued isAuth env =>
    refine hmeets.inv_of_session (i := i) hs hrun fun hrun hmds => ?_
    obtain ⟨heffect, hq⟩ := addUpdateCap_effect hrun hmds
    exact ⟨heffect, fun hq' => (hq hq').queuedAuth⟩
  | caps i inode =>
    cases hrun
    obtain ⟨hsame, hauth⟩ := h.same i inode rfl
    exact hs.setInode hsame.keeps hauth

theorem Inv.acknowledged (hs : s.Inv) {want} (hdone : s.waitSyncCaps want = true)
    (hr : r ∈ s.started) (hle : r.seq ≤ want) : s.Acknowledged r := by
  intro b hb
  refine (hs.pending r hr b hb).resolve_right fun hp => ?_
  obtain ⟨mds, hmds, -, hmem⟩ := hs.queued r.ino (Finset.ne_empty_of_mem hp.flushing)
  have hord := hs.ordered mds
  cases hlist : s.flushingCaps mds with
  | nil =>
    rw [hlist] at hmem
    cases hmem
  | cons j l =>
    have hfirst := all_eq_true.mp hdone mds hmds
    rw [hlist] at hfirst
    have hfirst : want < (s.inode j).flushingSeq := by simpa using hfirst
    have hseq := hp.seq
    rw [hlist] at hmem hord
    rcases mem_cons.mp hmem with heq | hmem
    · rw [heq] at hseq
      omega
    · have hlt := rel_of_pairwise_cons hord hmem
      omega

/-- When a wait is over, every flush up to its number is acknowledged, provided that no flushing
inode is flushed again, moved behind a later flush or left without an auth cap, and that no
acknowledgement is late by the range of its number. -/
theorem waitSyncCaps_acknowledged {evs : List CapsEvent} (hinit : s.Initial)
    (htrace : Trace (fun e s s' => s.Step e s' ∧ s.Meets e s') s evs s') {want : ℕ}
    (hdone : s'.waitSyncCaps want = true) {r : CapFlush} (hr : r ∈ s'.started)
    (hle : r.seq ≤ want) :
    s'.Acknowledged r := by
  have hinv : s'.Inv := htrace.invariant (P := Inv) (fun _ _ _ _ h ht => h.1.inv h.2 ht) hinit.inv
  exact hinv.acknowledged hdone hr hle

/-- A client with sessions to two ranks; the auth cap of an inode is from the rank of its
parity. -/
def mounted : CapsClient where
  inode := fun i =>
    let cap : InodeCap := ⟨{pin, authExcl, xattrExcl}, {pin, authExcl, xattrExcl}, ∅⟩
    .holding ⟨[(i % 2, cap)], by simp⟩ (i % 2)
  ids := fun _ _ => ⟨1, 1, 1⟩
  sessions := [0, 1]
  flushingCaps := fun _ => []
  lastFlushSeq := 0
  started := []
  acks := []

theorem mounted_initial : mounted.Initial := ⟨fun _ => rfl, fun _ => rfl, fun _ => rfl, rfl⟩

/-- `check_caps(in, true)` -/
def delayed : CheckEnv := ⟨[], false, true, 1, 0⟩

theorem trace_of_handle {evs} (hcaps : ∀ i inode, .caps i inode ∉ evs)
    (hrun : evs.foldlM handle s = .ok s') : Trace Step s evs s' := by
  induction evs generalizing s with
  | nil =>
    cases hrun
    exact .nil _
  | cons e evs ih =>
    obtain ⟨t, ht, hrun⟩ := bind_eq_ok.mp hrun
    refine .cons ⟨ht, fun i inode he => ?_⟩ (ih (fun i inode h => ?_) hrun)
    · exact absurd (he ▸ mem_cons_self) (hcaps i inode)
    · exact hcaps i inode (mem_cons_of_mem _ h)

def Short (s : CapsClient) : Prop := ∀ mds, (s.flushingCaps mds).length ≤ 1

theorem Short.behind (h : s.Short) (mds : ℕ) (l : List ℕ) (i : ℕ)
    (hl : s.flushingCaps mds = l ++ [i]) :
    ∀ j ∈ l, (s.inode j).flushingSeq < (s.inode i).flushingSeq := by
  have hlen := h mds
  rw [hl, length_append, length_singleton] at hlen
  rw [length_eq_zero_iff.mp (by omega : l.length = 0)]
  exact forall_mem_nil _

theorem Short.clean (h : s.Short) (i tid : ℕ) (dirty : Mask) : (s.clean i tid dirty).Short := by
  intro mds
  unfold CapsClient.clean
  dsimp only
  split_ifs
  · exact (length_filter_le _ _).trans (h mds)
  · exact h mds

theorem clean_auth (h : ∀ j, (s.inode j).flushing ≠ ∅ → (s.inode j).auth ≠ none)
    (hne : ((s.clean i tid dirty).inode j).flushing ≠ ∅) :
    ((s.clean i tid dirty).inode j).auth ≠ none := by
  by_cases hj : j = i
  · subst hj
    rw [clean_inode] at hne ⊢
    exact h j fun hempty => hne (by simp [hempty])
  · rw [clean_inode_of_ne hj] at hne ⊢
    exact h j hne

/-- A changed mode that is flushed and acknowledged. -/
theorem waitSyncCaps_acknowledged_chmod :
    ∃ evs s r, Trace (fun e s s' => s.Step e s' ∧ s.Meets e s') mounted evs s ∧
      s.waitSyncCaps 1 = true ∧ r ∈ s.started ∧ r = ⟨1, 0, {authExcl}, 1⟩ ∧ s.Acknowledged r := by
  let e1 : CapsEvent := .markCapsDirty 0 {authExcl}
  let e2 : CapsEvent := .checkCaps 0 delayed
  let e3 : CapsEvent := .flushAck 0 0 1 {authExcl}
  let s1 : CapsClient :=
    mounted.setInode 0 { mounted.inode 0 with dirty := (mounted.inode 0).dirty ∪ {authExcl} }
  have hres : ((s1.handle e2).toOption.map fun t => ((t.inode 0).auth, (t.inode 0).lastFlushTid,
      t.started, (t.handleCapFlushAck 0 0 1 {authExcl}).waitSyncCaps 1)) =
        some (some 0, 1, [⟨1, 0, {authExcl}, 1⟩], true) := by decide +kernel
  obtain ⟨s2, hrun, heq⟩ := Option.map_eq_some_iff.mp hres
  have hrun := eq_ok_of_toOption hrun
  simp only [Prod.mk.injEq] at heq
  obtain ⟨hauth, htid, hstarted, hwait⟩ := heq
  obtain ⟨heffect, -⟩ := checkCaps_effect hrun
  have hflushing : ∀ j, (s1.inode j).flushing = ∅ := by
    intro j
    by_cases hj : j = 0
    · rw [hj, setInode_inode]
      rfl
    · rw [setInode_inode_of_ne hj]
      rfl
  have hauths : ∀ j, (s2.inode j).flushing ≠ ∅ → (s2.inode j).auth ≠ none := by
    intro j hne
    by_cases hj : j = 0
    · rw [hj, hauth]
      exact Option.some_ne_none 0
    · rw [heffect.others j hj] at hne
      exact absurd (hflushing j) hne
  have hshort : s2.Short := by
    intro mds
    rcases heffect.place with ⟨hlists, -⟩ | ⟨dest, hlists⟩
    · rw [hlists]
      exact Nat.zero_le 1
    · rw [hlists, relisted]
      split_ifs
      · exact le_rfl
      · exact Nat.zero_le 1
  let s3 := s2.handleCapFlushAck 0 0 1 {authExcl}
  have hmeets1 : mounted.Meets e1 s1 := by
    refine ⟨fun _ hne => absurd rfl hne, ?_, fun j hne => absurd (hflushing j) hne, by simp [e1]⟩
    exact Short.behind fun _ => Nat.zero_le 1
  have hmeets2 : s1.Meets e2 s2 :=
    ⟨fun j hne => absurd (hflushing j) hne, hshort.behind, hauths, by simp [e2]⟩
  have hack : s3 = { s2 with acks := ⟨0, 1, {authExcl}⟩ :: s2.acks } ∨
      s3 = s2.clean 0 1 {authExcl} :=
    s2.handleCapFlushAck_cases 0 0 1 {authExcl}
  have hmeets3 : s2.Meets e3 s3 := by
    have hprompt : ∀ mds i tid dirty, e3 = .flushAck mds i tid dirty →
        (s2.inode i).lastFlushTid < tid + 2 ^ 16 := by
      intro mds i tid dirty he
      obtain ⟨-, rfl, rfl, -⟩ := CapsEvent.flushAck.inj he
      rw [htid]
      decide
    rcases hack with heq | heq <;> rw [heq]
    · exact ⟨fun _ _ => rfl, hshort.behind, hauths, hprompt⟩
    · exact ⟨fun j _ => clean_flushingSeq s2 0 1 _ j, (hshort.clean _ _ _).behind,
        fun j hne => clean_auth hauths hne, hprompt⟩
  have htrace : Trace (fun e s s' => s.Step e s' ∧ s.Meets e s') mounted [e1, e2, e3] s3 := by
    refine .cons ⟨⟨rfl, ?_⟩, hmeets1⟩ (.cons ⟨⟨hrun, ?_⟩, hmeets2⟩ (.single ⟨⟨rfl, ?_⟩, hmeets3⟩))
    all_goals simp [e1, e2, e3]
  have hmem : ⟨1, 0, {authExcl}, 1⟩ ∈ s3.started := by
    have hsame : s3.started = s2.started := by
      rcases hack with heq | heq
      · rw [heq]
      · rw [heq]
        rfl
    rw [hsame, hstarted]
    exact mem_singleton_self _
  exact ⟨_, s3, _, htrace, hwait, hmem, rfl,
    waitSyncCaps_acknowledged mounted_initial htrace hwait hmem le_rfl⟩

/-- Two flushes of one inode, and two of which the first moves to the other session: a wait for
the first is over at once, without an acknowledgement. -/
theorem waitSyncCaps_early :
    let again := [CapsEvent.markCapsDirty 0 {authExcl}, .checkCaps 0 delayed,
      .markCapsDirty 0 {xattrExcl}, .checkCaps 0 delayed]
    let moved := [CapsEvent.markCapsDirty 0 {authExcl}, .checkCaps 0 delayed,
      .markCapsDirty 1 {authExcl}, .checkCaps 1 delayed,
      .capExport 0 0 ⟨1, ∅, 1, 1, 1, 7, 1, 2⟩ delayed]
    ∀ evs ∈ [again, moved], ∃ s, Trace Step mounted evs s ∧ s.waitSyncCaps 1 = true ∧
      s.acks = [] ∧ ∃ r ∈ s.started, r.seq = 1 ∧ ¬s.Acknowledged r := by
  intro again moved
  have hone : ∀ evs ∈ [again, moved], ∃ s, evs.foldlM handle mounted = .ok s ∧
      s.waitSyncCaps 1 = true ∧ s.acks = [] ∧ ⟨1, 0, {authExcl}, 1⟩ ∈ s.started := by
    intro evs hevs
    have hres : ((evs.foldlM handle mounted).toOption.map fun s =>
        (s.waitSyncCaps 1, s.acks, decide (⟨1, 0, {authExcl}, 1⟩ ∈ s.started))) =
          some (true, [], true) := by
      revert evs
      decide +kernel
    obtain ⟨s, hrun, heq⟩ := Option.map_eq_some_iff.mp hres
    simp only [Prod.mk.injEq, decide_eq_true_eq] at heq
    exact ⟨s, eq_ok_of_toOption hrun, heq⟩
  intro evs hevs
  obtain ⟨s, hrun, hwait, hacks, hstarted⟩ := hone evs hevs
  refine ⟨s, trace_of_handle ?_ hrun, hwait, hacks, _, hstarted, rfl, ?_⟩
  · intro i inode
    rcases mem_pair.mp hevs with rfl | rfl <;> simp [again, moved]
  · intro hacked
    obtain ⟨a, ha, -⟩ := hacked authExcl (Finset.mem_singleton_self _)
    rw [hacks] at ha
    cases ha

end CapsClient

end CephDokan.Client
