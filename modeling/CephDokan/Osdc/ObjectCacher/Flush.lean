import CephDokan.Osdc.ObjectCacher.Readx

/-!
# Flushing

The functions that send dirty buffer heads. `flush` takes them from the dirty LRU list,
whose order is left open, so one round of its loop is a step of its own.
-/

namespace CephDokan.ObjectCacher.Cacher

variable (c : Cacher)

/-- One round of `flush(amount)`, which stops at a head that was written after `cutoff`, or of
`flusher_entry`. -/
def flushBh (key : Soid) (k cutoff : ℕ) : Run Cacher := do
  let f ← c.focus key
  let bh ← f.deref k
  if bh.lru = .dirty ∧ bh.lastWrite ≤ cutoff then c.bhWrite key k else return c

/-- The loop of `flush(ob, offset, length)`: the cache, and whether nothing is dirty or tx. -/
def flushLoop (key : Soid) (offset length : ℕ) :
    ℕ → Cacher → Option ℕ → Bool → Run (Cacher × Bool)
  | 0, c, p, clean => if p = none then .ok (c, clean) else .error .diverged
  | fuel + 1, c, p, clean =>
    match p with
    | none => .ok (c, clean)
    | some k => do
      let f ← c.focus key
      let bh ← f.deref k
      let next := f.ob.data.next k
      if length ≠ 0 ∧ bh.start > offset + length then return (c, clean)
      else if bh.state = .tx then flushLoop key offset length fuel c next false
      else if bh.state ≠ .dirty then flushLoop key offset length fuel c next clean
      else do
        let c ← c.bhWrite key k
        flushLoop key offset length fuel c next false

/-- `flush(ob, offset, length)` -/
def flushObject (key : Soid) (offset length : ℕ) : Run (Cacher × Bool) := do
  let f ← c.focus key
  flushLoop key offset length f.ob.data.entries.length c (f.dataLowerBound offset) true

/-- `ob->waitfor_commit[ob->last_write_tid].push_back(ctx)` -/
def waitObject (ctx : ℕ) (key : Soid) : Run Cacher :=
  c.atObject key fun f => .ok (f.waitCommit ctx)

/-- The objects with heads in `dirty_or_tx_bh`. -/
def dirtyObjects : List (Soid × Object) :=
  c.objects.entries.filter fun e => e.2.data.entries.any fun h => h.2.isDirtyOrTx

/-- `flush_set(oset, onfinish)`: the dirty heads of all sets are sent. The set of heads is
walked object by object here, in the source by address. -/
def flushSet (oset : ObjectSet) (ctx : ℕ) : Run Cacher :=
  if c.objectsOf oset = [] then .ok c
  else do
    let objects := c.dirtyObjects
    let c ← objects.foldlM (fun c e => c.writeDirty e.1 e.2.data.entries) c
    objects.foldlM (fun c e => c.waitObject ctx e.1) c

/-- `flush_set(oset, exv, onfinish)` for one extent. -/
def flushExtent (oset : ObjectSet) (ctx : ℕ) (c : Cacher) (ex : ObjectExtent) : Run Cacher :=
  let key := soid oset.poolid ex.oid cephNosnap
  if c.objects.contains key then do
    let (c, clean) ← c.flushObject key ex.offset ex.length
    if clean then return c else c.waitObject ctx key
  else .ok c

/-- `flush_set(oset, exv, onfinish)` -/
def flushSetExtents (oset : ObjectSet) (exv : List ObjectExtent) (ctx : ℕ) :
    Run Cacher :=
  if c.objectsOf oset = [] then .ok c else exv.foldlM (flushExtent oset ctx) c

end CephDokan.ObjectCacher.Cacher
