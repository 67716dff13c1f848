import CephDokan.Lib.SortedMap
import CephDokan.Common.Buffer

/-!
# Buffer heads, objects and the accounts of the cache

A `BufferHead` is a range of one object in one state. Every change of a buffer head
goes through the functions of this file, which keep the byte counts by state, the dirty
byte counts of object and object set, the set of dirty and tx heads and the two LRU
lists of the cache in step.

A pointer to a buffer head is its key in `Object::data`; `id` stands for its address.
The reference count of a buffer head is one while it is rx or tx and zero otherwise, so
it is pinned in its LRU list exactly then. The order of the LRU lists is left open: a
list is the set of its members.
-/

namespace CephDokan.ObjectCacher

inductive BhState
  | missing
  | clean
  | zero
  | dirty
  | rx
  | tx
  | error
  deriving DecidableEq, Repr

inductive Lru
  | dirty
  | rest
  deriving DecidableEq, Repr

structure SnapContext where
  seq : ℕ
  snaps : List ℕ
  deriving DecidableEq, Repr

structure BufferHead where
  id : ℕ
  state : BhState := .missing
  start : ℕ := 0
  length : ℕ := 0
  dontneed : Bool := false
  bl : Bytes := []
  lastWriteTid : ℕ := 0
  lastReadTid : ℕ := 0
  lastWrite : ℕ := 0
  snapc : SnapContext := ⟨0, []⟩
  error : ℤ := 0
  waitforRead : SortedMap ℕ (List ℕ) := ∅

namespace BufferHead

variable (bh : BufferHead)

/-- `end()` -/
def stop : ℕ := bh.start + bh.length

def isDirtyOrTx : Bool := bh.state = .dirty ∨ bh.state = .tx

def lru : Lru := if bh.state = .dirty then .dirty else .rest

/-- The head in state `s`; leaving the error state forgets the error. -/
def withState (s : BhState) : BufferHead :=
  { bh with
    state := s
    error := if s ≠ .error ∧ bh.state = .error then 0 else bh.error }

/-- `lru_pinned` -/
def pinned : Bool := bh.state = .rx ∨ bh.state = .tx

end BufferHead

/-- The accounts that `ObjectCacher` keeps over all its buffer heads. -/
structure Books where
  stat : BhState → ℤ := fun _ => 0
  osetDirtyOrTx : ℕ → ℤ := fun _ => 0
  dirtyOrTxBh : Finset ℕ := ∅
  bhLru : ℕ → Option Lru := fun _ => none
  nextBh : ℕ := 0

namespace Books

variable (b : Books)

def lruInsert (l : Lru) (id : ℕ) : Run Books := do
  assertThat (b.bhLru id = none)
  return { b with bhLru := Function.update b.bhLru id (some l) }

def lruRemove (l : Lru) (id : ℕ) : Run Books := do
  match b.bhLru id with
  | none => return b
  | some l' =>
    assertThat (l' = l)
    return { b with bhLru := Function.update b.bhLru id none }

def lruTouch (l : Lru) (id : ℕ) : Run Books := do
  let b ← b.lruRemove l id
  b.lruInsert l id

variable (bh : BufferHead)

/-- `bh_set_state`: move between the lists when the head becomes dirty or stops being so. -/
def lruMove (s : BhState) : Run Books :=
  if s = .dirty ∧ bh.state ≠ .dirty then do
    let b ← b.lruRemove .rest bh.id
    b.lruInsert .dirty bh.id
  else if s ≠ .dirty ∧ bh.state = .dirty then do
    let b ← b.lruRemove .dirty bh.id
    b.lruInsert .rest bh.id
  else .ok b

/-- `bh_set_state`: keep `dirty_or_tx_bh`. -/
def moveDirtyOrTx (s : BhState) : Books :=
  let now := s = .tx ∨ s = .dirty
  { b with
    dirtyOrTxBh :=
      if now ∧ ¬bh.isDirtyOrTx then insert bh.id b.dirtyOrTxBh
      else if bh.isDirtyOrTx ∧ ¬now then b.dirtyOrTxBh.erase bh.id
      else b.dirtyOrTxBh }

def dirtyInsert : Books :=
  if bh.isDirtyOrTx then { b with dirtyOrTxBh := insert bh.id b.dirtyOrTxBh } else b

def dirtyErase : Books :=
  if bh.isDirtyOrTx then { b with dirtyOrTxBh := b.dirtyOrTxBh.erase bh.id } else b

end Books

/-- An object of the cache; `objExists` is the field `exists`. -/
structure Object where
  oid : String
  objectNo : ℕ
  oset : ℕ
  truncateSize : ℕ
  truncateSeq : ℕ
  complete : Bool := false
  objExists : Bool := true
  data : SortedMap ℕ BufferHead := ∅
  lastWriteTid : ℕ := 0
  lastCommitTid : ℕ := 0
  dirtyOrTx : ℤ := 0
  waitforCommit : SortedMap ℕ (List ℕ) := ∅
  ref : ℕ := 0

/-- An object together with the accounts of the cache it belongs to. -/
structure Focus where
  books : Books
  ob : Object

namespace Focus

variable (f : Focus)

def deref (k : ℕ) : Run BufferHead :=
  match f.ob.data.find? k with
  | some bh => .ok bh
  | none => .error .dangling

def assign (k : ℕ) (bh : BufferHead) : Focus :=
  { f with ob := { f.ob with data := f.ob.data.insert k bh } }

def withBooks (b : Books) : Focus := { f with books := b }

variable (bh : BufferHead)

/-- Add `n` to the counters that hold the bytes of `bh`. -/
def statBy (n : ℤ) : Focus :=
  let stat := Function.update f.books.stat bh.state (f.books.stat bh.state + n)
  if bh.isDirtyOrTx then
    { books := { f.books with
        stat := stat
        osetDirtyOrTx := Function.update f.books.osetDirtyOrTx f.ob.oset
          (f.books.osetDirtyOrTx f.ob.oset + n) }
      ob := { f.ob with dirtyOrTx := f.ob.dirtyOrTx + n } }
  else f.withBooks { f.books with stat := stat }

def bhStatAdd : Focus := f.statBy bh bh.length

def bhStatSub : Focus := f.statBy bh (-bh.length)

/-- Change the buffer head `bh` at `k` to `bh'` between `bh_stat_sub` and `bh_stat_add`. -/
def exchange (k : ℕ) (bh bh' : BufferHead) : Focus :=
  ((f.bhStatSub bh).assign k bh').bhStatAdd bh'

def setLength (k len : ℕ) : Run Focus := do
  let bh ← f.deref k
  return f.exchange k bh { bh with length := len }

def bhSetState (k : ℕ) (s : BhState) : Run Focus := do
  let bh ← f.deref k
  let books ← f.books.lruMove bh s
  return (f.withBooks (books.moveDirtyOrTx bh s)).exchange k bh (bh.withState s)

/-- `mark_dirty`: the head also moves to the top of its list. -/
def markDirty (k : ℕ) : Run Focus := do
  let f ← f.bhSetState k .dirty
  let bh ← f.deref k
  let books ← f.books.lruTouch .dirty bh.id
  return f.withBooks books

def touchBh (k : ℕ) : Run Focus := do
  let bh ← f.deref k
  let books ← f.books.lruTouch bh.lru bh.id
  return (f.withBooks books).assign k { bh with dontneed := false }

/-- `add_bh`: the first buffer head takes a reference to the object. -/
def addBh : Run Focus := do
  let ref := if f.ob.data.entries = [] then f.ob.ref + 1 else f.ob.ref
  assertThat (f.ob.data.find? bh.start = none)
  return { f with ob := { f.ob with ref := ref, data := f.ob.data.insert bh.start bh } }

/-- `remove_bh`: the last buffer head drops its reference. -/
def removeBh : Run Focus := do
  assertThat (f.ob.data.contains bh.start = true)
  let data := f.ob.data.erase bh.start
  assertThat (data.entries = [] → f.ob.ref > 0)
  let ref := if data.entries = [] then f.ob.ref - 1 else f.ob.ref
  return { f with ob := { f.ob with ref := ref, data := data } }

def bhAdd : Run Focus := do
  let f ← f.addBh bh
  let books ← f.books.lruInsert bh.lru bh.id
  return (f.withBooks (books.dirtyInsert bh)).bhStatAdd bh

def bhRemove (k : ℕ) : Run Focus := do
  let bh ← f.deref k
  let f ← f.removeBh bh
  let books ← f.books.lruRemove bh.lru bh.id
  return (f.withBooks (books.dirtyErase bh)).bhStatSub bh

/-- `new BufferHead(this)` -/
def newBh : BufferHead × Focus :=
  ({ id := f.books.nextBh }, f.withBooks { f.books with nextBh := f.books.nextBh + 1 })

end Focus

end CephDokan.ObjectCacher
