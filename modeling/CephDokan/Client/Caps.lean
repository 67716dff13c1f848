import CephDokan.Common.Buffer
import CephDokan.Lib.SortedMap

/-!
# Capabilities of an inode

An inode has one cap for each MDS that has issued it something. The client counts the
references it holds on each bit, and answers a revocation once none of the revoked bits is
in use. The masks are sets of bit numbers.
-/

namespace CephDokan.Client

/-! ### Masks -/

/-- A bit of an `int` mask. -/
abbrev CapBit := Fin 32

abbrev Mask := Finset CapBit

namespace CapBit

def pin : CapBit := 0
def authShared : CapBit := 2
def authExcl : CapBit := 3
def linkShared : CapBit := 4
def linkExcl : CapBit := 5
def xattrShared : CapBit := 6
def xattrExcl : CapBit := 7
def fileShared : CapBit := 8
def fileExcl : CapBit := 9
def fileCache : CapBit := 10
def fileRd : CapBit := 11
def fileWr : CapBit := 12
def fileBuffer : CapBit := 13
def fileLazyio : CapBit := 15

end CapBit

namespace Mask

open CapBit

/-- `CEPH_CAP_BITS` -/
def capBits : ℕ := 22

def anyShared : Mask := {authShared, linkShared, xattrShared, fileShared}
def anyRd : Mask := anyShared ∪ {fileRd, fileCache}
def anyExcl : Mask := {authExcl, linkExcl, xattrExcl, fileExcl}
def anyFileWr : Mask := {fileWr, fileBuffer, fileExcl}
def any : Mask := anyRd ∪ anyExcl ∪ anyFileWr ∪ {fileLazyio, pin}

end Mask

/-! ### The state of an inode -/

/-- What one MDS has issued, and what of it the client has not given back yet. -/
structure InodeCap where
  issued : Mask
  implemented : Mask
  wanted : Mask
  deriving DecidableEq

/-- A `MClientCaps` from the client, or a release in a request. -/
structure CapMessage where
  mds : ℕ
  caps : Mask
  wanted : Mask
  dirty : Mask
  tid : ℕ
  deriving DecidableEq

/-- The part of an `Inode` that the handling of caps reads. -/
structure CapInode where
  caps : SortedMap ℕ InodeCap
  auth : Option ℕ
  /-- `cap_refs` -/
  refs : CapBit → ℕ
  /-- The object set in the cacher is not empty. -/
  cached : Bool
  /-- `caps_file_wanted()` -/
  fileWanted : Mask
  dirty : Mask
  flushing : Mask
  /-- `flushing_cap_seq` -/
  flushingSeq : ℕ
  lastFlushTid : ℕ
  /-- `flushing_cap_tid`, in sixteen bits. -/
  flushingTid : CapBit → ℕ
  size : ℕ
  reportedSize : ℕ
  maxSize : ℕ
  wantedMaxSize : ℕ
  requestedMaxSize : ℕ
  holdUntil : ℕ
  /-- The newest cap snap is still being written. -/
  snapWriting : Bool

namespace CapInode

open CapBit

/-- An inode that holds the caps of the given ranks and has changed nothing. -/
def holding (caps : SortedMap ℕ InodeCap) (auth : ℕ) : CapInode where
  caps := caps
  auth := some auth
  refs := fun _ => 0
  cached := false
  fileWanted := ∅
  dirty := ∅
  flushing := ∅
  flushingSeq := 0
  lastFlushTid := 0
  flushingTid := fun _ => 0
  size := 0
  reportedSize := 0
  maxSize := 0
  wantedMaxSize := 0
  requestedMaxSize := 0
  holdUntil := 0
  snapWriting := false

variable (inode : CapInode)

def authCap : Option InodeCap := inode.auth.bind inode.caps.find?

/-- `caps_issued()`, for the head of the file. -/
def capsIssued : Mask :=
  inode.caps.entries.foldr (fun e c => e.2.issued ∪ c) ∅

def capsImplemented : Mask :=
  inode.caps.entries.foldr (fun e i => e.2.implemented ∪ i) ∅

def capsUsed : Mask := Finset.univ.filter fun b => inode.refs b ≠ 0

/-- `get_caps_used` -/
def getCapsUsed : Mask :=
  if fileCache ∉ inode.capsUsed ∧ inode.cached then insert fileCache inode.capsUsed
  else inode.capsUsed

def capsWanted : Mask :=
  let want := inode.fileWanted ∪ inode.capsUsed
  if fileBuffer ∈ want then insert fileExcl want else want

/-! ### Sending -/

/-- `send_cap`. A bit under revocation is not retained, and what is neither retained nor used
is given back. -/
def sendCap (mds : ℕ) (cap : InodeCap) (used want retain flush : Mask) :
    CapInode × CapMessage :=
  let revoking := cap.implemented \ cap.issued
  let issued := cap.issued ∩ (retain \ revoking)
  let implemented := cap.implemented ∩ (issued ∪ used)
  let tid := if flush = ∅ then 0 else inode.lastFlushTid + 1
  let inode := { inode with
    caps := inode.caps.insert mds ⟨issued, implemented, want⟩
    lastFlushTid := if flush = ∅ then inode.lastFlushTid else tid
    flushingTid := fun b =>
      if b ∈ flush ∧ b.val < Mask.capBits then tid % 2 ^ 16 else inode.flushingTid b
    reportedSize := inode.size
    requestedMaxSize :=
      if inode.auth = some mds then inode.wantedMaxSize else inode.requestedMaxSize }
  (inode, ⟨mds, implemented, want, flush, tid⟩)

/-- `mark_caps_flushing`, with the next number of the client. -/
def markCapsFlushing (seq : ℕ) : CapInode :=
  { inode with flushing := inode.flushing ∪ inode.dirty, dirty := ∅, flushingSeq := seq }

/-- What `check_caps` knows of the client: its sessions, the clock and how long caps are kept. -/
structure CheckEnv where
  sessions : List ℕ
  unmounting : Bool
  isDelayed : Bool
  now : ℕ
  releaseDelay : ℕ

/-- The inode during `check_caps`, with the messages so far, the client's `last_flush_seq` and
whether the inode was put on the list of its session. -/
structure Checking where
  inode : CapInode
  sent : List CapMessage
  lastFlushSeq : ℕ
  queued : Bool

variable (env : CheckEnv)

def needsAck (wanted capUsed retain : Mask) (mds : ℕ) (cap : InodeCap) : Bool :=
  let revoking := cap.implemented \ cap.issued
  let isAuth := inode.auth = some mds
  if inode.wantedMaxSize > inode.maxSize ∧ inode.wantedMaxSize > inode.requestedMaxSize ∧
    isAuth then
    true
  else if fileWr ∈ cap.issued ∧ 2 * inode.size ≥ inode.maxSize ∧
      2 * inode.reportedSize < inode.maxSize ∧ isAuth then
    true
  else if revoking ≠ ∅ ∧ revoking ∩ capUsed = ∅ then true
  else if wanted \ (cap.wanted ∪ cap.issued) ≠ ∅ then true
  else if revoking = ∅ ∧ env.unmounting ∧ capUsed = ∅ then true
  else if wanted = cap.wanted ∧ cap.issued \ retain = ∅ ∧ inode.dirty = ∅ then false
  else ¬ env.now < inode.holdUntil

/-- What of the bits in use the cap has to keep: a bit that the auth cap has issued is not
needed from another one. -/
def usedOf (used : Mask) (mds : ℕ) : Mask :=
  match inode.authCap with
  | some a => if inode.auth = some mds then used else used \ a.issued
  | none => used

/-- One round of the loop of `check_caps`. -/
def checkCap (env : CheckEnv) (wanted used retain : Mask) (c : Checking) (mds : ℕ) :
    Run Checking :=
  match c.inode.caps.find? mds with
  | none => .ok c
  | some cap => do
    assertThat (mds ∈ env.sessions)
    let capUsed := c.inode.usedOf used mds
    if c.inode.needsAck env wanted capUsed retain mds cap then
      if c.inode.auth = some mds ∧ c.inode.dirty ≠ ∅ then
        let flushing := c.inode.dirty
        let seq := c.lastFlushSeq + 1
        let (inode, m) :=
          (c.inode.markCapsFlushing seq).sendCap mds cap capUsed wanted retain flushing
        return ⟨inode, c.sent ++ [m], seq, true⟩
      else
        let (inode, m) := c.inode.sendCap mds cap capUsed wanted retain ∅
        return { c with inode, sent := c.sent ++ [m] }
    else return c

theorem checkCap_cases {env} {wanted used retain} {c c'} {mds}
    (hrun : checkCap env wanted used retain c mds = .ok c') :
    c' = c ∨ ∃ cap inode flush, c.inode.caps.find? mds = some cap ∧
      (inode = c.inode ∨ inode = c.inode.markCapsFlushing (c.lastFlushSeq + 1)) ∧
      c'.inode = (inode.sendCap mds cap (c.inode.usedOf used mds) wanted retain flush).1 ∧
      c'.sent =
        c.sent ++ [(inode.sendCap mds cap (c.inode.usedOf used mds) wanted retain flush).2] := by
  unfold checkCap at hrun
  cases hfind : c.inode.caps.find? mds with
  | none =>
    rw [hfind] at hrun
    exact .inl (Except.ok.inj hrun).symm
  | some cap =>
    rw [hfind] at hrun
    obtain ⟨-, -, hrun⟩ := Fallible.bind_eq_ok.mp hrun
    by_cases hack : c.inode.needsAck env wanted (c.inode.usedOf used mds) retain mds cap = true
    · rw [if_pos hack] at hrun
      right
      by_cases hdirty : c.inode.auth = some mds ∧ c.inode.dirty ≠ ∅
      · rw [if_pos hdirty] at hrun
        cases hrun
        exact ⟨cap, _, _, rfl, .inr rfl, rfl, rfl⟩
      · rw [if_neg hdirty] at hrun
        cases hrun
        exact ⟨cap, _, _, rfl, .inl rfl, rfl, rfl⟩
    · rw [if_neg hack] at hrun
      exact .inl (Except.ok.inj hrun).symm

/-- What the client would like to keep. -/
def retained (unmounting : Bool) : Mask :=
  let retain := insert pin (inode.capsWanted ∪ inode.getCapsUsed)
  if unmounting then retain
  else if inode.capsWanted ≠ ∅ then retain ∪ Mask.any
  else retain ∪ Mask.anyShared

/-- `check_caps`, for the head of the file. -/
def checkCaps (seq : ℕ) : Run Checking :=
  if inode.caps.entries = [] then .ok ⟨inode, [], seq, false⟩
  else
    let held := if env.isDelayed then 0 else env.now + env.releaseDelay
    inode.caps.keys.foldlM
      (checkCap env inode.capsWanted inode.getCapsUsed (inode.retained env.unmounting))
      ⟨{ inode with holdUntil := held }, [], seq, false⟩

theorem checkCaps_invariant {P : Checking → Prop} {inode : CapInode} {env} {seq}
    {c} (hrun : inode.checkCaps env seq = .ok c)
    (hstart : ∀ held, P ⟨{ inode with holdUntil := held }, [], seq, false⟩)
    (hround : ∀ c c' mds, checkCap env inode.capsWanted inode.getCapsUsed
      (inode.retained env.unmounting) c mds = .ok c' → P c → P c') : P c := by
  unfold checkCaps at hrun
  by_cases hempty : inode.caps.entries = []
  · rw [if_pos hempty] at hrun
    cases hrun
    exact hstart inode.holdUntil
  · rw [if_neg hempty] at hrun
    exact Fallible.foldlM_invariant hrun (fun mds _ c c' hc h => hround c c' mds h hc) (hstart _)

/-! ### References -/

/-- `get_cap_ref` -/
def getCapRef (mask : Mask) : CapInode :=
  { inode with refs := fun b => if b ∈ mask then inode.refs b + 1 else inode.refs b }

/-- The caps as `get_caps` looks at them: `some` is what `*phave` is set to. -/
def tryCaps (need want : Mask) : Option Mask :=
  let issued := inode.capsIssued
  let butnot := want \ (issued ∩ need)
  let revoking := inode.capsImplemented \ issued
  if need ⊆ issued ∧ revoking ∩ butnot = ∅ then some (need ∪ issued ∩ want) else none

/-- A round of `get_caps` with `endoff`; `none` waits or returns an error. -/
def getCaps (seq : ℕ) (need want : Mask) (endoff : ℤ) :
    Run (Checking × Option Mask) := do
  if inode.caps.entries = [] then return (⟨inode, [], seq, false⟩, none)
  let c ← (if 0 < endoff ∧ ((inode.maxSize : ℤ) ≤ endoff ∨ (2 * inode.size : ℤ) < endoff) ∧
      (inode.wantedMaxSize : ℤ) < endoff then
    { inode with wantedMaxSize := endoff.toNat }.checkCaps { env with isDelayed := false } seq
  else .ok ⟨inode, [], seq, false⟩ : Run Checking)
  if (0 ≤ endoff ∧ (c.inode.maxSize : ℤ) < endoff) ∨ c.inode.snapWriting then return (c, none)
  else
    match c.inode.tryCaps need want with
    | some have_ => return ({ c with inode := c.inode.getCapRef need }, some have_)
    | none => return (c, none)

/-- The bits whose last reference `put_cap_ref` drops. -/
def lastRefs (mask : Mask) : Mask := mask.filter fun b => inode.refs b = 1

/-- The references that `put_cap_ref` drops; the last one on `FILE_WR` ends the write of a
pending cap snap. -/
def dropRefs (mask : Mask) : CapInode :=
  { inode with
    refs := fun b => if b ∈ mask then inode.refs b - 1 else inode.refs b
    snapWriting := inode.snapWriting && fileWr ∉ inode.lastRefs mask }

/-- What is to be given up when the last references on `last` are gone. -/
def toDrop (last : Mask) : Mask :=
  let drop := last \ inode.capsIssued
  if fileCache ∈ last ∧ fileCache ∉ inode.capsWanted then insert fileCache drop else drop

/-- Releasing the object set leaves it empty, or not. -/
def releaseSet (emptied : Bool) : CapInode :=
  { inode with cached := inode.cached && !emptied }

/-- `put_cap_ref`. Once the object set is released, the inode is looked at again by a queued
callback. -/
def putCapRef (seq : ℕ) (mask : Mask) (emptied : Bool) :
    Run Checking := do
  assertThat (∀ b ∈ mask, 0 < inode.refs b)
  let drop := (inode.dropRefs mask).toDrop (inode.lastRefs mask)
  if drop = ∅ then return ⟨inode.dropRefs mask, [], seq, false⟩
  else if fileCache ∈ drop then
    return ⟨(inode.dropRefs mask).releaseSet emptied, [], seq, false⟩
  else (inode.dropRefs mask).checkCaps { env with isDelayed := false } seq

/-! ### Messages from an MDS -/

/-- Another MDS revokes something that the auth MDS grants. -/
def othersRevoke (mds : ℕ) (newCaps : Mask) : Bool :=
  inode.caps.entries.any fun e => e.1 ≠ mds ∧ (e.2.implemented \ e.2.issued) ∩ newCaps ≠ ∅

/-- How `_flush` ends: it waits for commits, there is nothing to flush, or the OSDs are full and
the set is purged. -/
inductive FlushEnd
  | waiting
  | flushed
  | purged
  deriving DecidableEq

/-- The new `max_size` of a grant. -/
def setMaxSize (mds maxSize : ℕ) : CapInode :=
  if inode.auth = some mds ∧ maxSize ≠ inode.maxSize then
    if maxSize > inode.wantedMaxSize then
      { inode with maxSize, wantedMaxSize := 0, requestedMaxSize := 0 }
    else { inode with maxSize }
  else inode

def setCap (mds : ℕ) (cap : InodeCap) (newCaps wanted : Mask) : CapInode :=
  { inode with caps := inode.caps.insert mds ⟨newCaps, cap.implemented ∪ newCaps, wanted⟩ }

/-- The end of `handle_cap_grant`. -/
def checkIf (seq : ℕ) (check : Bool) : Run Checking :=
  if check then inode.checkCaps { env with isDelayed := false } seq
  else .ok ⟨inode, [], seq, false⟩

/-- `handle_cap_grant`, behind the update of the inode's attributes. `reconsider` is the check
that an import asks for. -/
def handleCapGrant (seq : ℕ) (mds : ℕ) (newCaps : Mask) (maxSize : ℕ) (flush : FlushEnd)
    (emptied reconsider : Bool) : Run Checking :=
  match inode.caps.find? mds with
  | none => .error .dangling
  | some cap =>
    let used := inode.getCapsUsed
    let inode := inode.setMaxSize mds maxSize
    if cap.issued \ newCaps ≠ ∅ then
      let flushes := fileBuffer ∈ used \ newCaps
      if flushes ∧ flush = .waiting then
        (inode.setCap mds cap newCaps cap.wanted).checkIf env seq reconsider
      else
        let purges := flushes && flush = .purged
        if fileCache ∈ cap.issued \ newCaps then
          -- the set is released unless a reference keeps it
          let releases := inode.refs fileCache = 0 && emptied
          ((inode.setCap mds cap newCaps cap.wanted).releaseSet
            (purges || releases)).checkIf env seq
            reconsider
        else ((inode.setCap mds cap newCaps ∅).releaseSet purges).checkIf env seq true
    else if cap.issued = newCaps then inode.checkIf env seq reconsider
    else
      (inode.setCap mds cap newCaps cap.wanted).checkIf env seq
        (reconsider || (inode.auth = some mds && inode.othersRevoke mds newCaps))

/-- The bits whose newest flush an acknowledgement is for. -/
def cleaned (tid : ℕ) (dirty : Mask) : Mask :=
  dirty.filter fun b => b.val < Mask.capBits ∧ tid % 2 ^ 16 = inode.flushingTid b

/-- `handle_cap_flush_ack`; the flag says that the inode leaves the list of its session. -/
def handleCapFlushAck (tid : ℕ) (dirty : Mask) : CapInode × Bool :=
  let cleaned := inode.cleaned tid dirty
  if cleaned = ∅ ∨ inode.flushing = ∅ then (inode, false)
  else ({ inode with flushing := inode.flushing \ cleaned }, inode.flushing \ cleaned = ∅)

/-! ### Giving caps back -/

/-- The bits of `drop` are released. -/
def releases (cap : InodeCap) (drop unless_ : Mask) : Bool :=
  drop ∩ cap.issued ≠ ∅ ∧ unless_ ∩ cap.issued = ∅

def released (cap : InodeCap) (drop unless_ : Mask) : InodeCap :=
  if releases cap drop unless_ then
    { cap with issued := cap.issued \ drop, implemented := cap.implemented \ drop }
  else cap

/-- `encode_inode_release`; the message is there when the request carries a release. -/
def encodeInodeRelease (mds : ℕ) (drop unless_ : Mask) (force : Bool) :
    CapInode × Option CapMessage :=
  match inode.caps.find? mds with
  | none => (inode, none)
  | some cap =>
    let drop := drop \ (inode.dirty ∪ inode.getCapsUsed)
    let new := released cap drop unless_
    ({ inode with caps := inode.caps.insert mds new },
      if force || releases cap drop unless_ then some ⟨mds, new.implemented, new.wanted, ∅, 0⟩
      else none)

/-- What `trim_caps` does to a cap of the inode: a cap of another MDS than the auth one goes if
nothing in use depends on it. -/
def trimCap (mds : ℕ) : CapInode :=
  match inode.caps.find? mds with
  | none => inode
  | some cap =>
    let mine := cap.issued ∪ cap.implemented
    let oissued := (inode.authCap.map InodeCap.issued).getD ∅
    if inode.caps.entries.length > 1 ∧ inode.auth ≠ some mds ∧
        (inode.getCapsUsed \ oissued) ∩ mine = ∅ then
      { inode with caps := inode.caps.erase mds }
    else inode

end CapInode

end CephDokan.Client
