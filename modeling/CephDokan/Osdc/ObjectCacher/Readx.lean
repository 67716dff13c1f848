import CephDokan.Osdc.ObjectCacher.Cacher

/-!
# Reading through the cache

`_readx`: an extent that is not in the cache is asked for and the read waits, otherwise
the result is put together from the buffer heads. The order in the LRU list of objects
is left open, so `touch_ob` and `bottouch_ob` do nothing here.
-/

namespace CephDokan.ObjectCacher

/-- A read; `id` names it among the waiters, `wantBl` says whether it has a buffer. -/
structure OSDRead where
  id : ℕ
  extents : List ObjectExtent
  snap : ℕ
  wantBl : Bool := true
  dontneed : Bool := false

/-- What `_readx` has found out so far. -/
structure Reading where
  c : Cacher
  success : Bool := true
  error : ℤ := 0
  stripeMap : SortedMap ℕ Bytes := ∅

/-- One round of a loop of `_readx`: it goes on, or the call returns. -/
inductive ReadOutcome
  | more (rs : Reading)
  | done (c : Cacher) (ret : ℤ) (bl : Option Bytes)

def ReadOutcome.cacher : ReadOutcome → Cacher
  | .more rs => rs.c
  | .done c _ _ => c

namespace Focus

/-- `touch_bh` for a head that is read, and what becomes of it after the read. -/
def touchHit (f : Focus) (k : ℕ) (ex : ObjectExtent) (dontneed : Bool) : Run Focus := do
  let f ← f.touchBh k
  let bh ← f.deref k
  if dontneed ∧ ex.offset ≤ bh.start ∧ bh.stop ≤ ex.offset + ex.length then
    return f.assign k { bh with dontneed := true }
  else return f

def readBit (bh : BufferHead) (opos len : ℕ) : Run Bytes :=
  if bh.state = .zero then .ok (Bytes.zero len) else bh.bl.substrOf (opos - bh.start) len

/-- The loop that maps the heads `hits` to the fragments `frags` of the result: the position
it reaches, the fragments that are left, and the pieces of the result. -/
def rmapLoop (f : Focus) : ℕ → List (ℕ × ℕ) → List (ℕ × ℕ) → ℕ → ℕ → ℕ → SortedMap ℕ Bytes →
    Run (ℕ × List (ℕ × ℕ) × SortedMap ℕ Bytes)
  | 0, _, _, _, _, _, _ => .error .diverged
  | fuel + 1, hits, frags, opos, bhoff, foff, m =>
    match hits, frags with
    | [], frags => .ok (opos, frags, m)
    | _, [] => .ok (opos, [], m)
    | (first, k) :: hits, (fo, fl) :: frags => do
      let bh ← f.deref k
      assertThat (opos = bh.start + bhoff)
      let len := min (fl - foff) (bh.length - bhoff)
      let bit ← readBit bh opos len
      let m := m.insert fo ((m.find? fo).getD [] ++ bit)
      let bhDone := opos + len = bh.stop
      let fragDone := foff + len = fl
      f.rmapLoop fuel (if bhDone then hits else (first, k) :: hits)
        (if fragDone then frags else (fo, fl) :: frags) (opos + len)
        (if bhDone then 0 else bhoff + len) (if fragDone then 0 else foff + len) m

/-- The pieces that an extent that is fully cached adds to the result. -/
def rmap (f : Focus) (hits : List (ℕ × ℕ)) (ex : ObjectExtent) (m : SortedMap ℕ Bytes) :
    Run (SortedMap ℕ Bytes) :=
  match hits, ex.bufferExtents with
  | (first, k) :: hits, frag :: frags => do
    let bh ← f.deref k
    assertThat (bh.start ≤ ex.offset)
    let (opos, left, m) ← f.rmapLoop (hits.length + frags.length + 3) ((first, k) :: hits)
      (frag :: frags) ex.offset (ex.offset - bh.start) 0 m
    assertThat (left = [])
    assertThat (opos = ex.offset + ex.length)
    return m
  | _, _ => .error .dangling

end Focus

namespace Cacher

def writeDirty (c : Cacher) (key : Soid) (l : List (ℕ × BufferHead)) : Run Cacher :=
  l.foldlM (fun c e => if e.2.state = .dirty then c.bhWrite key e.1 else .ok c) c

/-- An object that does not exist: write back first if that may change what is read, or
return the error, or go on. -/
def readNonexistent (c : Cacher) (key : Soid) (rd : OSDRead) (ex : ObjectExtent) :
    Run (Cacher × Option ℤ) := do
  let f ← c.focus key
  let heads := f.ob.data.entries
  assertThat (rd.extents.length = 1)
  if c.mayCopyOnWrite ex.oid ex.offset ex.length rd.snap ∧
      heads.any (fun e => e.2.isDirtyOrTx) then do
    let c ← c.writeDirty key heads
    let c ← c.atObject key fun f => .ok (f.waitCommit rd.id)
    return (c, some 0)
  else if f.allZero then return (c, some enoent)
  else return (c, none)

/-- What `_readx` does first with an object, if the caller wants to know that it does not
exist: `some ret` if the call returns. -/
def checkExists (c : Cacher) (oset : ObjectSet) (key : Soid) (rd : OSDRead) (ex : ObjectExtent) :
    Run (Cacher × Option ℤ) := do
  let f ← c.focus key
  if oset.returnEnoent ∧ ¬f.ob.objExists then c.readNonexistent key rd ex else return (c, none)

end Cacher

namespace Reading

variable (key : Soid) (rd : OSDRead)

/-- A head that is missing: ask for it, or wait if too much has been asked for already. -/
def readMissing (onfinish : Bool) (rs : Reading) (e : ℕ × ℕ) :
    Run Reading := do
  let f ← rs.c.focus key
  let bh ← f.deref e.2
  if rs.c.waitforRead ≠ [] ∨ rs.c.books.stat .rx + bh.length > rs.c.maxSize then do
    let c ← rs.c.atObject key fun f => f.bhRemove e.2
    let waiting := if rs.success then c.waitforRead ++ [rd.id] else c.waitforRead
    return { rs with c := { c with waitforRead := waiting }, success := false }
  else do
    let c ← rs.c.bhRead key e.2
    let c ← c.atObject key fun f =>
      if rs.success ∧ onfinish then f.addWaiter e.2 e.1 rd.id else .ok f
    return { rs with c := c, success := false }

def readRx (onfinish : Bool) (rs : Reading) (e : ℕ × ℕ) :
    Run Reading := do
  let c ← rs.c.atObject key fun f => do
    let f ← f.touchBh e.2
    if rs.success ∧ onfinish then f.addWaiter e.2 e.1 rd.id else .ok f
  return { rs with c := c, success := false }

/-- A head that has the data, while others of the extent do not. -/
def readTouch (rs : Reading) (e : ℕ × ℕ) : Run Reading := do
  let c ← rs.c.atObject key fun f => f.touchBh e.2
  return { rs with c := c }

def readHit (ex : ObjectExtent) (rs : Reading) (e : ℕ × ℕ) :
    Run Reading := do
  let f ← rs.c.focus key
  let bh ← f.deref e.2
  let c ← rs.c.atObject key fun f => f.touchHit e.2 ex rd.dontneed
  return { rs with
    c := c
    error := if bh.state = .error ∧ bh.error ≠ 0 then bh.error else rs.error }

/-- `hits.insert(errors.begin(), errors.end())` -/
def insertAll (m m' : SortedMap ℕ ℕ) : SortedMap ℕ ℕ :=
  m'.entries.foldl (fun m e => if m.contains e.1 then m else m.insert e.1 e.2) m

/-- What `_readx` does with the heads that `map_read` has found for an extent. -/
def readMapped (onfinish external : Bool) (ex : ObjectExtent) (m : Focus.ReadMap) (rs : Reading) :
    Run Reading :=
  let missing := if external then insertAll m.missing m.errors else m.missing
  let hits := if external then m.hits else insertAll m.hits m.errors
  if missing.entries ≠ [] ∨ m.rx.entries ≠ [] then do
    let rs ← missing.entries.foldlM (readMissing key rd onfinish) rs
    let rs ← m.rx.entries.foldlM (readRx key rd onfinish) rs
    hits.entries.foldlM (readTouch key) rs
  else do
    assertThat (hits.entries ≠ [])
    let rs ← hits.entries.foldlM (readHit key rd ex) rs
    let f ← rs.c.focus key
    let stripeMap ← f.rmap hits.entries ex rs.stripeMap
    return { rs with stripeMap := stripeMap }

/-- Map the extents of the read to the heads of one object. -/
def mapAt (rs : Reading) : Run (Reading × Focus.ReadMap) := do
  let f ← rs.c.focus key
  let (f, m) ← f.mapRead rd.extents {}
  return ({ rs with c := rs.c.put key f }, m)

def readObject (onfinish external : Bool) (rs : Reading) (ex : ObjectExtent) : Run Reading := do
  let (rs, m) ← mapAt key rd rs
  readMapped key rd onfinish external ex m rs

/-- One round of the loop of `_readx`. -/
def readExtent (oset : ObjectSet) (rd : OSDRead) (onfinish external : Bool) (rs : Reading)
    (ex : ObjectExtent) : Run ReadOutcome := do
  let key := soid ex.pool ex.oid rd.snap
  let c := rs.c.getObject key ex.oid ex.objectno oset ex.truncateSize
  let (c, ret) ← c.checkExists oset key rd ex
  match ret with
  | some ret => return .done c ret none
  | none => do
    let rs ← readObject key rd onfinish external { rs with c := c } ex
    return .more rs

def readLoop (oset : ObjectSet) (rd : OSDRead) (onfinish external : Bool) (rs : Reading) :
    List ObjectExtent → Run ReadOutcome
  | [] => .ok (.more rs)
  | ex :: extents => do
    let o ← readExtent oset rd onfinish external rs ex
    match o with
    | .done c ret bl => return .done c ret bl
    | .more rs => readLoop oset rd onfinish external rs extents

/-- Put the pieces of the result one after the other. -/
def joinPieces : List (ℕ × Bytes) → ℕ → Bytes → Run (ℕ × Bytes)
  | [], pos, bl => .ok (pos, bl)
  | (first, piece) :: pieces, pos, bl => do
    assertThat (pos = first)
    joinPieces pieces (pos + piece.length) (bl ++ piece)

/-- The end of `_readx` once all extents have been seen: the return value and the data. -/
def readResult (rd : OSDRead) (rs : Reading) : Run (ℤ × Option Bytes) :=
  if ¬rs.success then .ok (0, none)
  else if rd.wantBl ∧ rs.error = 0 then do
    let (pos, bl) ← joinPieces rs.stripeMap.entries 0 []
    assertThat (pos < 2 ^ 31)
    return (pos, some bl)
  else
    match rs.stripeMap.entries.getLast? with
    | none => .error .dangling
    | some (first, piece) => do
      assertThat (first + piece.length < 2 ^ 31)
      return (if rs.error ≠ 0 then rs.error else first + piece.length, none)

end Reading

namespace Cacher

/-- `_readx` up to the call of `trim` at its end. -/
def readx (c : Cacher) (oset : ObjectSet) (rd : OSDRead) (onfinish external : Bool) :
    Run (Cacher × ℤ × Option Bytes) := do
  let o ← Reading.readLoop oset rd onfinish external { c := c } rd.extents
  match o with
  | .done c ret bl => return (c, ret, bl)
  | .more rs => do
    let (ret, bl) ← Reading.readResult rd rs
    return (rs.c, ret, bl)

/-- The heads that `lru_expire` may take off the list of those that are not dirty. -/
def expirable (c : Cacher) : List (Soid × ℕ) :=
  c.objects.entries.flatMap fun e =>
    (e.2.data.entries.filter fun h => h.2.lru = .rest ∧ h.2.pinned = false).map fun h => (e.1, h.1)

def idle (c : Cacher) : List Soid := (c.objects.entries.filter fun e => e.2.ref = 0).map Prod.fst

end Cacher

/-- The orders of the two LRU lists in every cache. -/
structure LruOrder where
  heads : Cacher → List (Soid × ℕ)
  objects : Cacher → List Soid
  heads_perm : ∀ c, (heads c).Perm c.expirable
  objects_perm : ∀ c, (objects c).Perm c.idle

instance : Inhabited LruOrder :=
  ⟨⟨Cacher.expirable, Cacher.idle, fun c => .refl c.expirable, fun c => .refl c.idle⟩⟩

namespace Cacher

/-- `trim` -/
def trim (c : Cacher) (lru : LruOrder) : Run Cacher := do
  let c ← (lru.heads c).foldlM (fun c v => c.trimBh v.1 v.2) c
  (lru.objects c).foldlM trimObject c

/-- The whole of `_readx`: a read that has all its data trims the cache. -/
def readxTrim (c : Cacher) (lru : LruOrder) (oset : ObjectSet) (rd : OSDRead)
    (onfinish external : Bool) : Run (Cacher × ℤ × Option Bytes) := do
  let o ← Reading.readLoop oset rd onfinish external { c := c } rd.extents
  match o with
  | .done c ret bl => return (c, ret, bl)
  | .more rs => do
    let (ret, bl) ← Reading.readResult rd rs
    let c ← if rs.success then rs.c.trim lru else .ok rs.c
    return (c, ret, bl)

end Cacher

end CephDokan.ObjectCacher
