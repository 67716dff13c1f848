import CephDokan.Common.Buffer
import CephDokan.Lib.LockMap

/-!
# The table of file locks

`ceph_lock_state_t`: locks on byte ranges in a `multimap` by their start. A length of 0
stands for "to the end of the file". `add_lock` looks for locks that overlap, gives up on
a conflict, and otherwise trims, splits and merges the locks of the same owner around the
new one; `remove_lock` cuts a range out of the owner's locks.
-/

namespace CephDokan.Mds

/-- `struct ceph_filelock`; all numbers are 64 bits wide. -/
structure FileLock where
  start : ℕ
  length : ℕ
  client : ℕ
  owner : ℕ
  pid : ℕ
  type : LockMode
  deriving DecidableEq, Repr

/-- An entry of `held_locks`, with a name for the iterators that point to it. -/
structure Held where
  id : ℕ
  lock : FileLock
  deriving DecidableEq, Repr

/-- `ceph_filelock_owner_equal` -/
def ownerEqual (l r : FileLock) : Bool :=
  if l.client ≠ r.client ∨ l.owner ≠ r.owner then false
  else if l.owner.testBit 63 then true
  else l.pid = r.pid

namespace FileLock

/-- `start + length - 1` in `uint64_t` -/
def lastByte (l : FileLock) : ℕ := sub64 (l.start + l.length) 1

def neighborCheck (l : FileLock) : FileLock :=
  if l.start ≠ 0 then
    { l with
      start := l.start - 1
      length := if l.length ≠ 0 then u64 (l.length + 2) else 0 }
  else { l with length := if l.length ≠ 0 then u64 (l.length + 1) else 0 }

def endpoint (l : FileLock) : ℕ := if l.length ≠ 0 then u64 (l.start + l.length) else 2 ^ 64 - 1

/-- `share_space` of an entry and a range whose last byte is `last` -/
def shareSpaceWith (iter : FileLock) (start last : ℕ) : Bool :=
  start ≤ iter.start ∧ iter.start ≤ last ∨
    iter.start < start ∧ (start ≤ iter.lastByte ∨ iter.length = 0)

/-- The last byte of a lock in `share_space`. -/
def shareEnd (l : FileLock) : ℕ :=
  if l.length ≠ 0 then u64 (l.start + (l.length - 1)) else 2 ^ 64 - 1

/-- `share_space` of an entry and a lock -/
def shareSpace (iter lock : FileLock) : Bool := iter.shareSpaceWith lock.start lock.shareEnd

end FileLock

/-- The value of an `int` that is assigned a `uint64_t`. -/
def toInt32 (n : ℕ) : ℤ := ((n + 2 ^ 31) % 2 ^ 32 : ℕ) - 2 ^ 31

/-- The value of a `uint64_t` that is assigned a sum in `uint64_t` with a negative part. -/
def intToU64 (i : ℤ) : ℕ := (i % 2 ^ 64).toNat

/-- `ceph_lock_state_t`: the two multimaps in their order, and the maps of counts by client. -/
structure LockState where
  heldLocks : List Held
  waitingLocks : List FileLock
  clientHeldLockCounts : ℕ → Option ℤ
  clientWaitingLockCounts : ℕ → Option ℤ
  nextId : ℕ

namespace LockState

def empty : LockState := ⟨[], [], fun _ => none, fun _ => none, 0⟩

/-- `++counts[client]` -/
def increment (counts : ℕ → Option ℤ) (client : ℕ) : ℕ → Option ℤ :=
  Function.update counts client (some ((counts client).getD 0 + 1))

/-- `--counts[client]`, and `counts.erase(client)` if this gives 0. -/
def decrement (counts : ℕ → Option ℤ) (client : ℕ) : ℕ → Option ℤ :=
  let n := (counts client).getD 0 - 1
  Function.update counts client (if n = 0 then none else some n)

variable (s : LockState)

/-- `held_locks.insert`, behind the locks with the same start, and the count of the client. -/
def insertHeld (lock : FileLock) : LockState :=
  { s with
    heldLocks := s.heldLocks.takeWhile (fun e => e.lock.start ≤ lock.start) ++
      ⟨s.nextId, lock⟩ :: s.heldLocks.dropWhile (fun e => e.lock.start ≤ lock.start)
    clientHeldLockCounts := increment s.clientHeldLockCounts lock.client
    nextId := s.nextId + 1 }

/-- `held_locks.erase`, and the count of the client, which the source checks for 0 at the end of
the round. -/
def eraseHeld (e : Held) : LockState :=
  { s with
    heldLocks := s.heldLocks.filter fun x => x.id ≠ e.id
    clientHeldLockCounts := decrement s.clientHeldLockCounts e.lock.client }

/-- `old_lock->length = length` -/
def setLength (e : Held) (length : ℕ) : LockState :=
  { s with
    heldLocks := s.heldLocks.map fun x =>
      if x.id = e.id then ⟨x.id, { x.lock with length := length }⟩ else x }

/-! ### The locks that overlap -/

/-- The entries from `get_last_before` back to the first. -/
def getLastBefore (last : ℕ) (held : List Held) : List Held :=
  match (held.takeWhile fun e => e.lock.start ≤ last).reverse with
  | [] => held.take 1
  | l => l

/-- The loop of `get_overlapping_locks`. -/
def overlapLoop (lock : FileLock) : List Held → List Held → List Held → List Held × List Held
  | [], overlaps, neighbors => (overlaps, neighbors)
  | iter :: rest, overlaps, neighbors =>
    let shares := iter.lock.shareSpace lock
    let adjoins := !shares && ownerEqual lock.neighborCheck iter.lock &&
      iter.lock.shareSpace lock.neighborCheck
    let overlaps := if shares then iter :: overlaps else overlaps
    let neighbors := if adjoins then iter :: neighbors else neighbors
    -- nothing further to the left can overlap
    if iter.lock.start < lock.start ∧ iter.lock.type = .excl then (overlaps, neighbors)
    else overlapLoop lock rest overlaps neighbors

/-- `get_overlapping_locks`: the locks that overlap, and the owner's neighbors. -/
def getOverlappingLocks (lock : FileLock) : List Held × List Held :=
  overlapLoop lock (getLastBefore lock.endpoint s.heldLocks) [] []

/-! ### Trimming, splitting and merging -/

/-- The part of an old lock in front of a range stays, if there is one. -/
def trimBefore (e : Held) (start : ℕ) : LockState :=
  if e.lock.start < start then s.setLength e (sub64 start e.lock.start) else s.eraseHeld e

/-- A range is cut out of an old lock: the loop of `remove_lock`, and that of `adjust_locks`
where the types differ. `toEnd` says that the range has no end. -/
def cutOut (toEnd : Bool) (s : LockState) (e : Held) (range : FileLock) : LockState :=
  if toEnd then s.trimBefore e range.start
  else if e.lock.length = 0 then
    (s.insertHeld { e.lock with start := u64 (range.lastByte + 1) }).trimBefore e range.start
  else
    let rest : FileLock :=
      { e.lock with
        start := u64 (range.lastByte + 1)
        length := u64 (sub64 e.lock.lastByte (u64 (range.lastByte + 1)) + 1) }
    let s := if range.lastByte < e.lock.lastByte then s.insertHeld rest else s
    s.trimBefore e range.start

/-- One round of the first loop of `adjust_locks`; it changes the new lock as well. -/
def adjustOld (newLockToEnd : Bool) (st : LockState × FileLock) (e : Held) :
    LockState × FileLock :=
  let (s, new) := st
  if e.lock.type = new.type then
    let start := if e.lock.start < new.start then e.lock.start else new.start
    if newLockToEnd ∨ e.lock.length = 0 then
      (s.eraseHeld e, { new with start := start, length := 0 })
    else
      let newEnd := toInt32 (if e.lock.lastByte < new.lastByte then new.lastByte
        else e.lock.lastByte)
      (s.eraseHeld e, { new with start := start, length := intToU64 (newEnd - start + 1) })
  else (cutOut newLockToEnd s e new, new)

/-- One round of the second loop of `adjust_locks`. -/
def adjustNeighbor (st : LockState × FileLock) (e : Held) : Run (LockState × FileLock) :=
  let (s, new) := st
  if e.lock.type = new.type then
    if new.length = 0 then
      if u64 (e.lock.start + e.lock.length) = new.start then
        .ok (s.eraseHeld e, { new with start := e.lock.start })
      else .error .assertion
    else if e.lock.length = 0 then
      if u64 (new.start + new.length) = e.lock.start then
        .ok (s.eraseHeld e, { new with length := 0 })
      else .error .assertion
    else if u64 (e.lock.start + e.lock.length) = new.start then
      .ok (s.eraseHeld e, { new with
        start := e.lock.start, length := u64 (e.lock.length + new.length) })
    else if u64 (new.start + new.length) = e.lock.start then
      .ok (s.eraseHeld e, { new with length := u64 (e.lock.length + new.length) })
    else .ok (s.eraseHeld e, new)
  else .ok (s, new)

/-- `adjust_locks` -/
def adjustLocks (oldLocks : List Held) (new : FileLock) (neighborLocks : List Held) :
    Run (LockState × FileLock) :=
  neighborLocks.foldlM adjustNeighbor
    (oldLocks.foldl (adjustOld (decide (new.length = 0))) (s, new))

/-! ### Waiting locks -/

/-- `waiting_locks.insert`, and the count of the client. -/
def insertWaiting (lock : FileLock) : LockState :=
  { s with
    waitingLocks := s.waitingLocks.takeWhile (fun l => l.start ≤ lock.start) ++
      lock :: s.waitingLocks.dropWhile (fun l => l.start ≤ lock.start)
    clientWaitingLockCounts := increment s.clientWaitingLockCounts lock.client }

/-- `remove_waiting` -/
def removeWaiting (fl : FileLock) : LockState :=
  let isIt := fun l : FileLock => l.start = fl.start ∧ l.length = fl.length ∧ ownerEqual l fl
  if s.waitingLocks.any fun l => isIt l then
    { s with
      waitingLocks := s.waitingLocks.eraseP fun l => isIt l
      clientWaitingLockCounts := decrement s.clientWaitingLockCounts fl.client }
  else s

/-! ### The operations -/

/-- `add_lock` -/
def addLock (new : FileLock) (waitOnFail replay : Bool) :
    Run (LockState × Bool) := do
  let (overlaps, neighborLocks) := s.getOverlappingLocks new
  let others := overlaps.filter fun e => !ownerEqual e.lock new
  let own := overlaps.filter fun e => ownerEqual e.lock new
  let blocked := !others.isEmpty &&
    (decide (new.type = .excl) || others.any fun e => decide (e.lock.type = .excl))
  if blocked then
    return (if waitOnFail ∧ ¬replay then s.insertWaiting new else s, false)
  else
    let (s, new) ← adjustLocks (s.removeWaiting new) own new neighborLocks
    return (s.insertHeld new, true)

/-- `remove_lock` -/
def removeLock (removal : FileLock) : LockState :=
  let (overlaps, _) := s.getOverlappingLocks removal
  let own := overlaps.filter fun e => ownerEqual e.lock removal
  own.foldl (fun s e => cutOut (decide (removal.length = 0)) s e removal) s

/-- `remove_all_from` -/
def removeAllFrom (client : ℕ) : LockState × Bool :=
  let clearedAny := (s.clientHeldLockCounts client).isSome
  let s :=
    if clearedAny then
      { s with
        heldLocks := s.heldLocks.filter fun e => e.lock.client ≠ client
        clientHeldLockCounts := Function.update s.clientHeldLockCounts client none }
    else s
  let s :=
    if (s.clientWaitingLockCounts client).isSome then
      { s with
        waitingLocks := s.waitingLocks.filter fun l => l.client ≠ client
        clientWaitingLockCounts := Function.update s.clientWaitingLockCounts client none }
    else s
  (s, clearedAny)

end LockState

end CephDokan.Mds
