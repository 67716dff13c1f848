import CephDokan.Osdc.ObjectCacher.BufferHead
import CephDokan.Osdc.Striper

/-!
# The methods of a cached object

Splitting and merging buffer heads, and the loops that map a read or a write to buffer
heads or drop them. An iterator of `Object::data` is the key it stands at, or `none` for
`end()`. A loop takes fuel; a step of it that makes no progress in the source would make
it run out and stop as `diverged`.
-/

namespace CephDokan.ObjectCacher.Focus

/-- Move the waiters at or behind `off` to the right part. -/
def splitWaiters (w : SortedMap ℕ (List ℕ)) (off : ℕ) :
    SortedMap ℕ (List ℕ) × SortedMap ℕ (List ℕ) :=
  (w.filterKeys (fun k => k < off), w.filterKeys (fun k => ¬k < off))

/-- The data of the two parts of a head with data `bl`. -/
def splitBl (bl : Bytes) (leftLen rightLen : ℕ) : Run (Bytes × Bytes) :=
  if bl.length = 0 then .ok ([], [])
  else do
    assertThat (bl.length = leftLen + rightLen)
    let right ← bl.substrOf leftLen rightLen
    let left ← bl.substrOf 0 leftLen
    return (left, right)

variable (f : Focus)

/-- Cut the buffer head `k` at `off`; the new right part has the key `off`. -/
def split (k off : ℕ) : Run Focus := do
  let left ← f.deref k
  let (fresh, f) := f.newBh
  let newleftlen := off - left.start
  let right := { fresh with
    dontneed := left.dontneed
    lastWriteTid := left.lastWriteTid
    lastReadTid := left.lastReadTid
    state := left.state
    snapc := left.snapc
    start := off
    length := left.length - newleftlen }
  let f ← f.setLength k newleftlen
  let f ← f.bhAdd right
  let (leftBl, rightBl) ← splitBl left.bl newleftlen right.length
  let (leftWait, rightWait) := splitWaiters left.waitforRead off
  let left := { left with length := newleftlen, bl := leftBl, waitforRead := leftWait }
  let right := { right with bl := rightBl, waitforRead := rightWait }
  return (f.assign off right).assign k left

/-- Cut the buffer head `k` at `limit` if it reaches beyond. -/
def splitBeyond (k limit : ℕ) : Run Focus := do
  let bh ← f.deref k
  if bh.stop ≤ limit then return f else f.split k limit

/-- The waiters of `right` in front of those `left` has at the same byte. -/
def mergeWaiters (left right : SortedMap ℕ (List ℕ)) : SortedMap ℕ (List ℕ) :=
  right.entries.foldl (fun w e => w.insert e.1 (e.2 ++ (w.find? e.1).getD [])) left

/-- Join the buffer head `r` to its left neighbour `l`. -/
def mergeLeft (l r : ℕ) : Run Focus := do
  let left ← f.deref l
  let right ← f.deref r
  assertThat (left.stop = right.start)
  assertThat (left.state = right.state)
  let f ← f.bhRemove r
  let f ← f.setLength l (left.length + right.length)
  return f.assign l { left with
    length := left.length + right.length
    bl := left.bl ++ right.bl
    lastWriteTid := max left.lastWriteTid right.lastWriteTid
    lastWrite := max left.lastWrite right.lastWrite
    dontneed := if right.dontneed then left.dontneed else false
    waitforRead := mergeWaiters left.waitforRead right.waitforRead }

/-- Join the buffer head at `k` with a neighbour on the left that ends where it starts
and has its state; the key of the joined head. -/
def tryMergeLeft (k : ℕ) : Run (Focus × ℕ) := do
  let bh ← f.deref k
  match f.ob.data.prev k with
  | none => return (f, k)
  | some p =>
    let left ← f.deref p
    if left.stop = bh.start ∧ left.state = bh.state then do
      let f ← f.mergeLeft p k
      return (f, p)
    else return (f, k)

def tryMergeRight (k : ℕ) : Run Focus := do
  let bh ← f.deref k
  match f.ob.data.next k with
  | none => return f
  | some n =>
    let right ← f.deref n
    if right.start = bh.stop ∧ right.state = bh.state then f.mergeLeft k n
    else return f

def tryMergeBh (k : ℕ) : Run Focus := do
  let bh ← f.deref k
  if bh.state = .rx then return f
  else do
    assertThat (bh.start = k)
    let (f, k) ← f.tryMergeLeft k
    f.tryMergeRight k

/-- `data_lower_bound`: the first buffer head that includes or follows `offset`. -/
def dataLowerBound (offset : ℕ) : Option ℕ :=
  let data := f.ob.data
  let p := data.lowerBound offset
  let before :=
    match p with
    | none => data.last
    | some k => if k > offset then data.prev k else none
  match before with
  | none => p
  | some j =>
    match data.find? j with
    | none => p
    | some bh => if j + bh.length ≤ offset then p else some j

/-- A new buffer head `start~length` in the object. -/
def addMissing (start length : ℕ) : Run Focus :=
  let (bh, f) := f.newBh
  f.bhAdd { bh with start := start, length := length }

/-- The buffer heads that `map_read` finds for an extent, by the first byte wanted. -/
structure ReadMap where
  hits : SortedMap ℕ ℕ := ∅
  missing : SortedMap ℕ ℕ := ∅
  rx : SortedMap ℕ ℕ := ∅
  errors : SortedMap ℕ ℕ := ∅

/-- Record the head `k` for the byte `cur`; a missing head does not outlive a read. -/
def ReadMap.record (m : ReadMap) (s : BhState) (cur k : ℕ) : Run ReadMap :=
  match s with
  | .clean | .dirty | .tx | .zero => .ok { m with hits := m.hits.insert cur k }
  | .rx => .ok { m with rx := m.rx.insert cur k }
  | .error => .ok { m with errors := m.errors.insert cur k }
  | .missing => .error .assertion

/-- A buffer head for bytes that are not cached: known zeros in a complete object. -/
def mapGap (m : ReadMap) (cur len : ℕ) : Run (Focus × ReadMap) := do
  let f ← f.addMissing cur len
  if f.ob.complete then do
    let f ← f.bhSetState cur .zero
    return (f, { m with hits := m.hits.insert cur cur })
  else return (f, { m with missing := m.missing.insert cur cur })

def mapReadLoop : ℕ → Focus → ReadMap → Option ℕ → ℕ → ℕ → Run (Focus × ReadMap)
  | 0, f, m, _, _, left => if left = 0 then .ok (f, m) else .error .diverged
  | fuel + 1, f, m, p, cur, left =>
    if left = 0 then .ok (f, m)
    else
      match p with
      | none => f.mapGap m cur left
      | some k =>
        if k ≤ cur then do
          let e ← f.deref k
          let m ← m.record e.state cur k
          let lenfromcur := min (e.stop - cur) left
          mapReadLoop fuel f m (f.ob.data.next k) (cur + lenfromcur) (left - lenfromcur)
        else do
          let len := min (k - cur) left
          let (f, m) ← f.mapGap m cur len
          mapReadLoop fuel f m p (cur + len) (left - len)

/-- `map_read` over the extents of the read that belong to this object. -/
def mapRead (f : Focus) : List ObjectExtent → ReadMap → Run (Focus × ReadMap)
  | [], m => .ok (f, m)
  | ex :: extents, m =>
    if ex.oid ≠ f.ob.oid then mapRead f extents m
    else do
      let (f, m) ← mapReadLoop ex.length f m (f.dataLowerBound ex.offset) ex.offset ex.length
      mapRead f extents m

/-- Let `final` reach `len` bytes further, or start a new head at `cur`. -/
def growFinal (final : Option ℕ) (cur len : ℕ) : Run (Focus × ℕ) :=
  match final with
  | none => do
    let f ← f.addMissing cur len
    return (f, cur)
  | some k => do
    let bh ← f.deref k
    let f ← f.setLength k (bh.length + len)
    return (f, k)

/-- The part of the buffer head `k` (not behind `cur`) that the write covers, joined to
`final`: the new `final`. -/
def takeBh (final : Option ℕ) (k cur left : ℕ) : Run (Focus × ℕ) := do
  if k < cur then do
    assertThat (final = none)
    let f ← f.split k cur
    assertThat (f.ob.data.next k = some cur)
    let f ← f.splitBeyond cur (cur + left)
    return (f, cur)
  else do
    assertThat (k = cur)
    let f ← f.splitBeyond k (cur + left)
    match final with
    | none => return (f, k)
    | some k' => do
      let f ← f.markDirty k
      let f ← f.markDirty k'
      assertThat (f.ob.data.prev k = some k')
      let f ← f.mergeLeft k' k
      return (f, k')

def mapWriteLoop : ℕ → Focus → Option ℕ → Option ℕ → ℕ → ℕ → Run (Focus × Option ℕ)
  | 0, f, final, _, _, left => if left = 0 then .ok (f, final) else .error .diverged
  | fuel + 1, f, final, p, cur, left =>
    if left = 0 then .ok (f, final)
    else
      match p with
      | none => do
        let (f, final) ← f.growFinal final cur left
        mapWriteLoop fuel f (some final) none (cur + left) 0
      | some k =>
        if k ≤ cur then do
          let (f, final) ← f.takeBh final k cur left
          let bh ← f.deref final
          let lenfromcur := bh.stop - cur
          mapWriteLoop fuel f (some final) (f.ob.data.next final) (cur + lenfromcur)
            (left - lenfromcur)
        else do
          let glen := min (k - cur) left
          let (f, final) ← f.growFinal final cur glen
          mapWriteLoop fuel f (some final) p (cur + glen) (left - glen)

def mapWriteExtents (f : Focus) (final : Option ℕ) :
    List ObjectExtent → Run (Focus × Option ℕ)
  | [] => .ok (f, final)
  | ex :: extents =>
    if ex.oid ≠ f.ob.oid then mapWriteExtents f final extents
    else do
      let (f, final) ←
        mapWriteLoop ex.length f final (f.dataLowerBound ex.offset) ex.offset ex.length
      mapWriteExtents f final extents

/-- `map_write`: one buffer head for all bytes that the write puts into this object. -/
def mapWrite (extents : List ObjectExtent) : Run (Focus × ℕ) := do
  let (f, final) ← f.mapWriteExtents none extents
  match final with
  | none => .error .assertion
  | some k => return (f, k)

def truncateLoop (s : ℕ) : ℕ → Focus → Run Focus
  | 0, f => if f.ob.data.entries = [] then .ok f else .error .diverged
  | fuel + 1, f =>
    match f.ob.data.last with
    | none => .ok f
    | some k => do
      let bh ← f.deref k
      if bh.stop ≤ s then return f
      else if bh.start < s then do
        let f ← f.split k s
        truncateLoop s fuel f
      else do
        assertThat (bh.waitforRead.entries = [])
        let f ← f.bhRemove k
        truncateLoop s fuel f

/-- `truncate`: drop all bytes at and behind `s`. -/
def truncate (s : ℕ) : Run Focus := truncateLoop s (f.ob.data.entries.length + 2) f

def discardLoop (off len : ℕ) : ℕ → Focus → Option ℕ → Run Focus
  | 0, f, p => if p = none then .ok f else .error .diverged
  | fuel + 1, f, p =>
    match p with
    | none => .ok f
    | some k => do
      let bh ← f.deref k
      if bh.start ≥ off + len then return f
      else if bh.start < off then do
        let f ← f.split k off
        discardLoop off len fuel f (f.ob.data.next k)
      else do
        let f ← f.splitBeyond k (off + len)
        let p := f.ob.data.next k
        let bh ← f.deref k
        assertThat (bh.waitforRead.entries = [])
        let f ← f.bhRemove k
        discardLoop off len fuel f p

/-- `discard`: drop the bytes `off~len`; nothing is known about the object any more. -/
def discard (off len : ℕ) : Run Focus :=
  let f := { f with ob := { f.ob with objExists := true, complete := false } }
  discardLoop off len (f.ob.data.entries.length + 2) f (f.dataLowerBound off)

end CephDokan.ObjectCacher.Focus
