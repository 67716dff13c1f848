import CephDokan.Osdc.ObjectCacher.Object

/-!
# The object cacher

The cache, the reads and writes it has in flight at the writeback handler, and the
functions that work on all of it. A completion that the source calls while it holds the
lock only retries a read, so it is a later call of `readx` here; the same holds for a call
that waits and lets go of the lock.
-/

namespace CephDokan.ObjectCacher

/-- `sobject_t` with its pool: pool, object name, snapshot. -/
abbrev Soid := ℕ ×ₗ String ×ₗ ℕ

def soid (pool : ℕ) (oid : String) (snap : ℕ) : Soid := toLex (pool, toLex (oid, snap))

def cephNosnap : ℕ := 2 ^ 64 - 2

def enoent : ℤ := -2

structure ObjectSet where
  id : ℕ
  poolid : ℕ
  truncateSeq : ℕ := 0
  returnEnoent : Bool := false

structure OSDWrite where
  extents : List ObjectExtent
  snapc : SnapContext
  bl : Bytes
  dontneed : Bool := false

/-- `C_ReadFinish`: a read in flight; `onList` while it is on the list of its object. -/
structure ReadFinish where
  tid : ℕ
  key : Soid
  start : ℕ
  length : ℕ
  trustEnoent : Bool := true
  onList : Bool := true
  deriving DecidableEq

/-- `C_WriteCommit`: a write in flight, with what was sent. -/
structure WriteCommit where
  tid : ℕ
  key : Soid
  start : ℕ
  length : ℕ
  bl : Bytes
  snapc : SnapContext
  deriving DecidableEq

inductive Call
  | read (rd : ReadFinish)
  | write (w : WriteCommit)
  deriving DecidableEq

/-- The cache, with what it has in flight and all calls of the writeback handler so far. -/
structure Cacher where
  maxSize : ℕ
  maxObjects : ℕ
  mayCopyOnWrite : String → ℕ → ℕ → ℕ → Bool := fun _ _ _ _ => false
  books : Books := {}
  objects : SortedMap Soid Object := ∅
  lastReadTid : ℕ := 0
  waitforRead : List ℕ := []
  reads : List ReadFinish := []
  writes : List WriteCommit := []
  lastTid : ℕ := 0
  calls : List Call := []

namespace Focus

variable (f : Focus)

/-- The part of `bh_write` that works on the head: it goes out as write `tid`. -/
def sendBh (k tid : ℕ) : Run Focus := do
  let bh ← f.deref k
  let f := { f with ob := { f.ob with ref := f.ob.ref + 1, lastWriteTid := tid } }
  (f.assign k { bh with lastWriteTid := tid }).bhSetState k .tx

/-- The part of `bh_read` that works on the head: it waits for read `tid`. -/
def requestBh (k tid : ℕ) : Run Focus := do
  let f ← f.bhSetState k .rx
  let bh ← f.deref k
  return f.assign k { bh with lastReadTid := tid }

/-- `waitfor_read[first].push_back(ctx)` -/
def addWaiter (k first ctx : ℕ) : Run Focus := do
  let bh ← f.deref k
  let ls := (bh.waitforRead.find? first).getD []
  return f.assign k { bh with waitforRead := bh.waitforRead.insert first (ls ++ [ctx]) }

/-- `waitfor_commit[last_write_tid].push_back(ctx)` -/
def waitCommit (ctx : ℕ) : Focus :=
  let ls := (f.ob.waitforCommit.find? f.ob.lastWriteTid).getD []
  { f with ob := { f.ob with
      waitforCommit := f.ob.waitforCommit.insert f.ob.lastWriteTid (ls ++ [ctx]) } }

/-- What `writex` keeps of the buffer in front of a fragment. -/
def keepLeft (bl : Bytes) (bhoff : ℕ) : Run Bytes :=
  if bhoff = 0 then .ok [] else bl.substrOf 0 (u32 bhoff)

/-- Put the fragments `buffer_extents` of the data one after the other into `bh`. -/
def copyFragments (data : Bytes) : List (ℕ × ℕ) → BufferHead → ℕ → Run BufferHead
  | [], bh, _ => .ok bh
  | (first, len) :: frags, bh, opos => do
    let bhoff := sub64 bh.start opos
    assertThat (len ≤ sub64 bh.length bhoff)
    let frag ← data.substrOf (u32 first) (u32 len)
    let newbl ← keepLeft bh.bl bhoff
    copyFragments data frags { bh with bl := newbl ++ frag } (opos + len)

/-- `set_dontneed` or `touch_bh` -/
def touchWritten (k : ℕ) (dontneed : Bool) : Run Focus :=
  if dontneed then do
    let bh ← f.deref k
    return f.assign k { bh with dontneed := true }
  else f.touchBh k

/-- The body of the loop of `writex`: one extent, at time `now`. -/
def writeExtent (wr : OSDWrite) (now : ℕ) (ex : ObjectExtent) : Run Focus := do
  let (f, k) ← f.mapWrite wr.extents
  let bh ← f.deref k
  let bh ← copyFragments wr.bl ex.bufferExtents { bh with snapc := wr.snapc } ex.offset
  let f := f.assign k bh
  let f ← f.markDirty k
  let f ← f.touchWritten k wr.dontneed
  let bh ← f.deref k
  (f.assign k { bh with lastWrite := now }).tryMergeBh k

/-- Take all waiters off the head `k`. -/
def clearWaiters (k : ℕ) : Run Focus := do
  let bh ← f.deref k
  return f.assign k { bh with waitforRead := ∅ }

/-- A read has come back for the rx head `k`: with an error, or with the bytes `bl`. -/
def fillBh (k : ℕ) (bh : BufferHead) (oldpos : ℕ) (bl : Bytes) (r : ℤ) : Run Focus :=
  if r < 0 then (f.assign k { bh with error := r }).bhSetState k .error
  else do
    let part ← bl.substrOf (oldpos - bh.start) bh.length
    (f.assign k { bh with bl := part }).bhSetState k .clean

/-- `bh_read_finish` for one rx head that waits for this read. -/
def finishBh (k : ℕ) (rd : ReadFinish) (opos : ℕ) (bl : Bytes) (r : ℤ) : Run Focus := do
  let bh ← f.deref k
  assertThat (bh.start = opos)
  assertThat (bh.length ≤ rd.start + rd.length - opos)
  if r = enoent then
    if rd.trustEnoent then f.bhRemove k else return f
  else do
    let f ← f.fillBh k bh opos bl r
    f.tryMergeBh k

/-- The loop of `bh_read_finish`. -/
def readFinishLoop (rd : ReadFinish) (bl : Bytes) (r : ℤ) : ℕ → Focus → ℕ → Run Focus
  | 0, f, opos => if rd.start + rd.length ≤ opos then .ok f else .error .diverged
  | fuel + 1, f, opos =>
    match f.dataLowerBound opos with
    | none => .ok f
    | some k =>
      if rd.start + rd.length ≤ opos then .ok f
      else do
        let f ← f.clearWaiters k
        let bh ← f.deref k
        if bh.start > opos then readFinishLoop rd bl r fuel f bh.start
        else if bh.state ≠ .rx then readFinishLoop rd bl r fuel f bh.stop
        else if bh.lastReadTid ≠ rd.tid then readFinishLoop rd bl r fuel f bh.stop
        else do
          let f ← f.finishBh k rd opos bl r
          readFinishLoop rd bl r fuel f bh.stop

/-- Run `op` on the head at each of `ks`. -/
def eachBh (op : Focus → ℕ → Run Focus) (f : Focus) (ks : List ℕ) : Run Focus := ks.foldlM op f

def allZero : Bool :=
  f.ob.data.entries.all fun e => e.2.state = .zero ∨ e.2.state = .rx

/-- The object does not exist: wake up all waiters and, if the reply is trusted, remember it
and drop heads that have become useless. -/
def readEnoent (trust : Bool) : Run Focus := do
  let zero := f.allZero
  let f ← f.eachBh clearWaiters f.ob.data.keys
  if trust then
    let f := { f with ob := { f.ob with complete := true, objExists := false } }
    if zero then f.eachBh bhRemove f.ob.data.keys else return f
  else return f

/-- `bh_read_finish` on the object. -/
def readFinish (rd : ReadFinish) (bl : Bytes) (r : ℤ) : Run Focus :=
  if r = enoent ∧ ¬f.ob.complete then do
    let f ← f.readEnoent rd.trustEnoent
    readFinishLoop rd bl r rd.length f rd.start
  else readFinishLoop rd bl r rd.length f rd.start

/-- `bh_write_commit` for one head. -/
def commitBh (k : ℕ) (w : WriteCommit) (r : ℤ) : Run Focus := do
  let bh ← f.deref k
  if bh.start < w.start ∧ bh.stop > w.start + w.length then return f
  else if bh.state ≠ .tx then return f
  else if bh.lastWriteTid ≠ w.tid then do
    assertThat (bh.lastWriteTid > w.tid)
    return f
  else if r ≥ 0 then f.bhSetState k .clean
  else f.markDirty k

/-- The loop of `bh_write_commit`. -/
def commitLoop (w : WriteCommit) (r : ℤ) : ℕ → Focus → Option ℕ → Run Focus
  | 0, f, p => if p = none then .ok f else .error .diverged
  | fuel + 1, f, p =>
    match p with
    | none => .ok f
    | some k => do
      let bh ← f.deref k
      if bh.start > w.start + w.length then return f
      else do
        let f ← f.commitBh k w r
        commitLoop w r fuel f (f.ob.data.next k)

/-- A write to the object has committed, so it exists. -/
def markExists (copyOnWrite : Bool) : Focus :=
  if f.ob.objExists then f
  else { f with ob := { f.ob with
    objExists := true
    complete := if copyOnWrite then false else f.ob.complete } }

/-- `bh_write_commit` on the object. -/
def writeCommit (w : WriteCommit) (r : ℤ) (copyOnWrite : Bool) : Run Focus := do
  let f := f.markExists copyOnWrite
  let f ← commitLoop w r f.ob.data.entries.length f (f.dataLowerBound w.start)
  assertThat (f.ob.lastCommitTid < w.tid)
  assertThat (f.ob.ref > 0)
  return { f with ob := { f.ob with
    lastCommitTid := w.tid
    waitforCommit := f.ob.waitforCommit.erase w.tid
    ref := f.ob.ref - 1 } }

/-- One round of the first loop of `trim` on the head `k`, which `lru_expire` takes off its
list. -/
def trimBh (maxSize k : ℕ) : Run Focus := do
  let bh ← f.deref k
  if f.books.stat .clean > maxSize ∧ bh.lru = .rest ∧ ¬bh.pinned then do
    let books ← f.books.lruRemove .rest bh.id
    assertThat (bh.state = .clean ∨ bh.state = .zero)
    let f ← (f.withBooks books).bhRemove k
    return { f with ob := { f.ob with complete := false } }
  else return f

/-- `release` on the heads: drop what is clean. -/
def releaseBhs : Run Focus :=
  f.eachBh bhRemove ((f.ob.data.entries.filter fun e =>
    e.2.state = .clean ∨ e.2.state = .zero).map Prod.fst)

end Focus

namespace Cacher

variable (c : Cacher) (key : Soid)

def focus : Run Focus :=
  match c.objects.find? key with
  | some ob => .ok ⟨c.books, ob⟩
  | none => .error .dangling

def put (f : Focus) : Cacher :=
  { c with books := f.books, objects := c.objects.insert key f.ob }

/-- Run `op` on the object behind a key. -/
def atObject (op : Focus → Run Focus) : Run Cacher := do
  let f ← c.focus key
  let f ← op f
  return c.put key f

/-- The object `get_object` returns: the one that is there, or a new one. -/
def objectFor (oid : String) (objectNo : ℕ) (oset : ObjectSet) (truncateSize : ℕ) : Object :=
  match c.objects.find? key with
  | some ob => { ob with
      objectNo := objectNo
      truncateSize := truncateSize
      truncateSeq := oset.truncateSeq }
  | none =>
    { oid := oid
      objectNo := objectNo
      oset := oset.id
      truncateSize := truncateSize
      truncateSeq := oset.truncateSeq }

/-- Run `op` on the object behind a key if the cache has it. -/
def ifCached (op : Focus → Run Focus) : Run Cacher :=
  if c.objects.contains key then c.atObject key op else .ok c

def getObject (oid : String) (objectNo : ℕ) (oset : ObjectSet) (truncateSize : ℕ) : Cacher :=
  c.put key ⟨c.books, c.objectFor key oid objectNo oset truncateSize⟩

/-- `close_object`, with the checks of `can_close` and of the destructor; the reads in
flight leave the list of the object. -/
def closeObject (ob : Object) : Run Cacher := do
  assertThat (ob.ref = 0)
  assertThat (ob.data.entries = [])
  assertThat (ob.waitforCommit.entries = [])
  assertThat (ob.dirtyOrTx = 0)
  return { c with
    objects := c.objects.erase key
    reads := c.reads.map fun rd => if rd.key = key then { rd with onList := false } else rd }

def bhRead (k : ℕ) : Run Cacher := do
  let f ← c.focus key
  let bh ← f.deref k
  let tid := c.lastReadTid + 1
  let f ← f.requestBh k tid
  let rd : ReadFinish := { tid := tid, key := key, start := bh.start, length := bh.length }
  return { c.put key f with
    lastReadTid := tid
    reads := c.reads ++ [rd]
    calls := c.calls ++ [.read rd] }

def bhWrite (k : ℕ) : Run Cacher := do
  let f ← c.focus key
  let bh ← f.deref k
  let tid := c.lastTid + 1
  let f ← f.sendBh k tid
  let w : WriteCommit :=
    { tid := tid, key := key, start := bh.start, length := bh.length, bl := bh.bl,
      snapc := bh.snapc }
  return { c.put key f with
    lastTid := tid
    writes := c.writes ++ [w]
    calls := c.calls ++ [.write w] }

def writeKey (ex : ObjectExtent) : Soid := soid ex.pool ex.oid cephNosnap

variable (oset : ObjectSet)

/-- One round of the loop of `writex`. -/
def writeObject (wr : OSDWrite) (now : ℕ) (ex : ObjectExtent) :
    Run Cacher :=
  (c.getObject (writeKey ex) ex.oid ex.objectno oset ex.truncateSize).atObject (writeKey ex)
    fun f => f.writeExtent wr now ex

/-- The loop of `writex`. -/
def writexLoop (c : Cacher) (oset : ObjectSet) (wr : OSDWrite) (now : ℕ) :
    List ObjectExtent → Run Cacher
  | [] => .ok c
  | ex :: extents => do
    let c ← c.writeObject oset wr now ex
    writexLoop c oset wr now extents

/-- `writex` up to the point where it waits for writeback. -/
def writex (wr : OSDWrite) (now : ℕ) : Run Cacher :=
  c.writexLoop oset wr now wr.extents

def padReply (rd : ReadFinish) (bl : Bytes) (r : ℤ) : Bytes :=
  if r ≥ 0 ∧ bl.length < rd.length then bl ++ Bytes.zero (rd.length - bl.length) else bl

def bhReadFinish (rd : ReadFinish) (bl : Bytes) (r : ℤ) : Run Cacher := do
  let c ← c.ifCached rd.key fun f => f.readFinish rd (padReply rd bl r) r
  return { c with reads := c.reads.filter fun rd' => rd'.tid ≠ rd.tid }

def bhWriteCommit (w : WriteCommit) (r : ℤ) : Run Cacher := do
  let mayCopy := fun oid => c.mayCopyOnWrite oid w.start w.length (ofLex (ofLex w.key).2).2
  let c ← c.ifCached w.key fun f => f.writeCommit w r (mayCopy f.ob.oid)
  return { c with writes := c.writes.filter fun w' => w'.tid ≠ w.tid }

/-- One round of the first loop of `trim`, for the head that `lru_expire` hands out. -/
def trimBh (k : ℕ) : Run Cacher :=
  c.atObject key fun f => f.trimBh c.maxSize k

/-- One round of the second loop of `trim`, for the object that `lru_expire` hands out. -/
def trimObject : Run Cacher := do
  let f ← c.focus key
  if c.objects.entries.length > c.maxObjects ∧ f.ob.ref = 0 then c.closeObject key f.ob
  else return c

/-- What `release` does when the clean heads are gone. -/
def releaseEnd (ob : Object) : Run Cacher :=
  if ob.ref = 0 then c.closeObject key ob
  else .ok (c.put key ⟨c.books, { ob with complete := false, objExists := true }⟩)

def release : Run Cacher := do
  let c ← c.atObject key Focus.releaseBhs
  let f ← c.focus key
  c.releaseEnd key f.ob

def objectsOf : List Soid :=
  (c.objects.entries.filter fun e => e.2.oset = oset.id).map Prod.fst

def releaseSet : Run Cacher :=
  (c.objectsOf oset).foldlM release c

def releaseAll : Run Cacher := c.objects.keys.foldlM release c

/-- `purge` -/
def purge : Run Cacher := c.atObject key fun f => f.truncate 0

def purgeSet : Run Cacher := do
  let c ← (c.objectsOf oset).foldlM purge c
  assertThat (c.objectsOf oset ≠ [] → c.books.osetDirtyOrTx oset.id = 0)
  return c

/-- `discard_set` for one extent. -/
def discardExtent (ex : ObjectExtent) : Run Cacher :=
  c.ifCached (soid oset.poolid ex.oid cephNosnap) fun f => f.discard ex.offset ex.length

def discardSet (exls : List ObjectExtent) : Run Cacher :=
  if c.objectsOf oset = [] then .ok c
  else exls.foldlM (fun c ex => c.discardExtent oset ex) c

/-- `clear_nonexistence` for one object: also its reads are not to be trusted. -/
def clearObject : Run Cacher := do
  let f ← c.focus key
  let ob := if f.ob.objExists then f.ob else { f.ob with objExists := true, complete := false }
  return { c.put key ⟨c.books, ob⟩ with
    reads := c.reads.map fun rd =>
      if rd.key = key ∧ rd.onList then { rd with trustEnoent := false } else rd }

def clearNonexistence : Run Cacher :=
  (c.objectsOf oset).foldlM clearObject c

end Cacher

end CephDokan.ObjectCacher
