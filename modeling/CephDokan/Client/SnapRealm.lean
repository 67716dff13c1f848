import CephDokan.Client.Fuel
import CephDokan.Lib.Inherited
import CephDokan.Osdc.ObjectCacher.BufferHead

/-!
# Snap realms

The realms a client knows form a forest. The snap context of a realm is built from its own
snaps and the context of its parent and kept until the realm is invalidated. Messages of the
MDS change realms and move them; a realm that nobody refers to is deleted.

A pointer to a realm is the inode number of the realm: there is never a second realm of one
number. The children of a realm are walked in the order in which they have come.
-/

namespace CephDokan.Client

open ObjectCacher (SnapContext)

/-- A realm, without `cached_snap_context`. -/
structure SnapRealm where
  nref : ℤ := 0
  created : ℕ := 0
  seq : ℕ := 0
  parent : ℕ := 0
  parentSince : ℕ := 0
  priorParentSnaps : List ℕ := []
  mySnaps : List ℕ := []
  pparent : Option ℕ := none
  pchildren : List ℕ := []
  inodesWithCaps : List ℕ := []
  deriving DecidableEq

structure SnapRealmInfo where
  ino : ℕ
  created : ℕ
  seq : ℕ
  parent : ℕ
  parentSince : ℕ
  priorParentSnaps : List ℕ
  mySnaps : List ℕ
  deriving DecidableEq

inductive SnapOp
  | update
  | create
  | destroy
  | split
  deriving DecidableEq

/-- `MClientSnap` -/
structure SnapMessage where
  op : SnapOp
  split : ℕ
  splitInos : List ℕ
  splitRealms : List ℕ
  trace : List SnapRealmInfo

/-- The realms with the contexts they keep (`seq` 0 if none), and the realm of each inode. -/
structure SnapState where
  realms : SortedMap ℕ SnapRealm := ∅
  cached : ℕ → SnapContext := fun _ => ⟨0, []⟩
  snaprealm : ℕ → Option ℕ := fun _ => none

/-! ### Contexts -/

/-- Insertion into a `set<snapid_t>`, which is listed from its greatest element. -/
def insertSnap (n : ℕ) : List ℕ → List ℕ
  | [] => [n]
  | m :: l => if m < n then n :: m :: l else if n = m then m :: l else m :: insertSnap n l

def snapSet (l : List ℕ) : List ℕ := l.foldl (fun snaps n => insertSnap n snaps) []

structure RealmSnaps where
  seq : ℕ
  parentSince : ℕ
  priorParentSnaps : List ℕ
  mySnaps : List ℕ

def SnapRealm.snaps (x : SnapRealm) : RealmSnaps :=
  ⟨x.seq, x.parentSince, x.priorParentSnaps, x.mySnaps⟩

/-- `build_snap_context`, with the context of the parent. -/
def RealmSnaps.buildSnapContext (x : RealmSnaps) : Option SnapContext → SnapContext
  | none => ⟨x.seq, snapSet (x.priorParentSnaps ++ x.mySnaps)⟩
  | some psnapc =>
    { seq := if psnapc.seq > x.seq then psnapc.seq else x.seq
      snaps := snapSet (x.priorParentSnaps ++ psnapc.snaps.filter (fun n => n ≥ x.parentSince) ++
        x.mySnaps) }

/-- `pchildren.insert(realm)` -/
def SnapRealm.addChild (x : SnapRealm) (r : ℕ) : SnapRealm :=
  { x with pchildren := if r ∈ x.pchildren then x.pchildren else x.pchildren ++ [r] }

def SnapRealm.update (x : SnapRealm) (info : SnapRealmInfo) : SnapRealm :=
  { x with
    seq := info.seq
    created := info.created
    parentSince := info.parentSince
    priorParentSnaps := info.priorParentSnaps
    mySnaps := info.mySnaps }

namespace SnapState

variable (s : SnapState)

def deref (r : ℕ) : Run SnapRealm :=
  match s.realms.find? r with
  | some x => .ok x
  | none => .error .dangling

def store (r : ℕ) (x : SnapRealm) : SnapState :=
  { s with realms := s.realms.insert r x }

def modify (r : ℕ) (f : SnapRealm → SnapRealm) : Run SnapState := do
  let x ← s.deref r
  return s.store r (f x)

def keep (r : ℕ) (c : SnapContext) : SnapState :=
  { s with cached := Function.update s.cached r c }

def getSnapContext : ℕ → SnapState → ℕ → Run (SnapContext × SnapState)
  | 0, _, _ => .error .diverged
  | fuel + 1, s, r => do
    let x ← s.deref r
    if (s.cached r).seq = 0 then
      match x.pparent with
      | none =>
        let c := x.snaps.buildSnapContext none
        return (c, s.keep r c)
      | some p => do
        let (psnapc, s) ← getSnapContext fuel s p
        let c := x.snaps.buildSnapContext (some psnapc)
        return (c, s.keep r c)
    else return (s.cached r, s)

/-- Visit the realms of a queue and, behind them, all that are below. -/
def walk (visit : SnapState → ℕ → Run SnapState) : ℕ → SnapState → List ℕ → Run SnapState
  | _, s, [] => .ok s
  | 0, _, _ :: _ => .error .diverged
  | fuel + 1, s, r :: q => do
    let s ← visit s r
    let x ← s.deref r
    walk visit fuel s (q ++ x.pchildren)

/-- `invalidate_cache` -/
def invalidateCache (r : ℕ) : SnapState := s.keep r ⟨0, []⟩

def invalidateSnaprealmAndChildren (fuel : ℕ) (s : SnapState) (r : ℕ) : Run SnapState :=
  walk (fun s r => .ok (s.invalidateCache r)) fuel s [r]

/-- `queue_cap_snap` for the inodes of a realm. -/
def flushRealm (fuel : ℕ) (s : SnapState) (r : ℕ) : Run SnapState := do
  let x ← s.deref r
  x.inodesWithCaps.foldlM (fun s _ => (s.getSnapContext fuel r).map Prod.snd) s

/-! ### References -/

def getSnapRealm (r : ℕ) : SnapState :=
  match s.realms.find? r with
  | some x => s.store r { x with nref := x.nref + 1 }
  | none => (s.store r { nref := 1 }).invalidateCache r

def putSnapRealm : ℕ → SnapState → ℕ → Run SnapState
  | 0, _, _ => .error .diverged
  | fuel + 1, s, r => do
    let x ← s.deref r
    if x.nref - 1 = 0 then
      let s := { s with realms := s.realms.erase r }
      match x.pparent with
      | none => return s
      | some p => do
        let s ← s.modify p fun y => { y with pchildren := y.pchildren.erase r }
        putSnapRealm fuel s p
    else return s.store r { x with nref := x.nref - 1 }

def leaveParent (fuel : ℕ) (s : SnapState) (r : ℕ) (x : SnapRealm) : Run SnapState :=
  match x.pparent with
  | none => .ok s
  | some p => do
    let s ← s.modify p fun y => { y with pchildren := y.pchildren.erase r }
    s.putSnapRealm fuel p

/-- `adjust_realm_parent`; the pointer to the old parent is cleared when the reference is
given back. -/
def adjustRealmParent (fuel : ℕ) (s : SnapState) (r parent : ℕ) : Run (SnapState × Bool) := do
  let x ← s.deref r
  if x.parent ≠ parent then
    let s := s.store r { x with parent := parent, pparent := none }
    let s ← s.leaveParent fuel r x
    let s := s.getSnapRealm parent
    let s ← s.modify r fun x => { x with pparent := some parent }
    let s ← s.modify parent (SnapRealm.addChild · r)
    return (s, true)
  else return (s, false)

/-! ### Messages -/

/-- One round of the loop of `update_snap_trace`. -/
def updateRealm (fuel : ℕ) (flush : Bool) (s : SnapState) (info : SnapRealmInfo) :
    Run SnapState := do
  let s := s.getSnapRealm info.ino
  let x ← s.deref info.ino
  let s ← (if info.seq > x.seq ∧ flush then walk (flushRealm fuel) fuel s [info.ino] else .ok s)
  let (s, moved) ← s.adjustRealmParent fuel info.ino info.parent
  let x ← s.deref info.ino
  let s := if info.seq > x.seq then s.store info.ino (x.update info) else s
  let s ← (if moved ∨ info.seq > x.seq then s.invalidateSnaprealmAndChildren fuel info.ino
    else .ok s)
  s.putSnapRealm fuel info.ino

def updateSnapTrace (fuel : ℕ) (flush : Bool) (s : SnapState) (trace : List SnapRealmInfo) :
    Run SnapState :=
  trace.foldlM (updateRealm fuel flush) s

/-- An inode leaves its realm for the realm that is split off. -/
def moveInode (fuel : ℕ) (info : SnapRealmInfo) (m : SnapState × List ℕ) (i : ℕ) :
    Run (SnapState × List ℕ) :=
  match m.1.snaprealm i with
  | none => .ok m
  | some r =>
    if r = info.ino then .ok m
    else do
      let x ← m.1.deref r
      if x.created > info.created then return m
      else
        let (_, s) ← m.1.getSnapContext fuel r
        let s ← s.modify r fun x => { x with inodesWithCaps := x.inodesWithCaps.erase i }
        let s ← s.putSnapRealm fuel r
        return (s, m.2 ++ [i])

/-- A realm that is known is moved below the realm that is split off. -/
def adoptRealm (fuel : ℕ) (r : ℕ) (s : SnapState) (child : ℕ) : Run SnapState :=
  if s.realms.contains child then do
    let s := s.getSnapRealm child
    let (s, _) ← s.adjustRealmParent fuel child r
    s.putSnapRealm fuel child
  else .ok s

def placeInode (r : ℕ) (s : SnapState) (i : ℕ) : Run SnapState := do
  let s ← s.modify r fun x =>
    { x with inodesWithCaps := x.inodesWithCaps ++ [i], nref := x.nref + 1 }
  return { s with snaprealm := Function.update s.snaprealm i (some r) }

/-- What `handle_snap` does for a split before it reads the trace. -/
def splitRealm (fuel : ℕ) (s : SnapState) (m : SnapMessage) (info : SnapRealmInfo) :
    Run (SnapState × List ℕ) := do
  let s := s.getSnapRealm info.ino
  let (s, moved) ← m.splitInos.foldlM (moveInode fuel info) (s, [])
  let s ← m.splitRealms.foldlM (adoptRealm fuel info.ino) s
  return (s, moved)

def handleSnap (fuel : ℕ) (s : SnapState) (m : SnapMessage) : Run SnapState :=
  if m.op = .split then
    match m.trace with
    | [] => .error .endOfBuffer
    | info :: _ => do
      assertThat (m.split ≠ 0)
      assertThat (info.ino = m.split)
      let (s, moved) ← s.splitRealm fuel m info
      let s ← s.updateSnapTrace fuel true m.trace
      let s ← moved.foldlM (placeInode info.ino) s
      s.putSnapRealm fuel info.ino
  else s.updateSnapTrace fuel (m.op ≠ .destroy) m.trace

/-- `add_update_cap` for the first cap of an inode. -/
def openRealm (i r : ℕ) : Run SnapState := do
  assertThat (s.snaprealm i = none)
  let s := s.getSnapRealm r
  let s ← s.modify r fun x => { x with inodesWithCaps := x.inodesWithCaps ++ [i] }
  return { s with snaprealm := Function.update s.snaprealm i (some r) }

/-- `remove_cap` for the last cap of an inode. -/
def closeRealm (fuel : ℕ) (s : SnapState) (i : ℕ) : Run SnapState :=
  match s.snaprealm i with
  | none => .error .dangling
  | some r => do
    let s ← s.modify r fun x => { x with inodesWithCaps := x.inodesWithCaps.erase i }
    let s ← s.putSnapRealm fuel r
    return { s with snaprealm := Function.update s.snaprealm i none }

end SnapState

/-- What can happen to the realms. `context` is any use of the context of an inode, a write for
example. -/
inductive SnapEvent
  | trace (infos : List SnapRealmInfo)
  | snap (m : SnapMessage)
  | openRealm (i r : ℕ)
  | closeRealm (i : ℕ)
  | context (i : ℕ)

namespace SnapState

def handle (fuel : ℕ) (s : SnapState) : SnapEvent → Run SnapState
  | .trace infos => s.updateSnapTrace fuel true infos
  | .snap m => s.handleSnap fuel m
  | .openRealm i r => s.openRealm i r
  | .closeRealm i => s.closeRealm fuel i
  | .context i =>
    match s.snaprealm i with
    | none => .error .dangling
    | some r => (s.getSnapContext fuel r).map Prod.snd

/-! ### The context of a realm -/

/-- The context that the realms define: own snaps, those of prior parents, and those of the
parent that are not older than `parent_since`. -/
inductive IsContext (s : SnapState) : ℕ → SnapContext → Prop
  | root {r : ℕ} {x : SnapRealm} {c : SnapContext} (h : s.realms.find? r = some x)
      (hroot : x.pparent = none) (hseq : c.seq = x.seq) (hdesc : c.snaps.Pairwise (· > ·))
      (hsnaps : ∀ n, n ∈ c.snaps ↔ n ∈ x.mySnaps ∨ n ∈ x.priorParentSnaps) : IsContext s r c
  | child {r p : ℕ} {x : SnapRealm} {c pc : SnapContext} (h : s.realms.find? r = some x)
      (hparent : x.pparent = some p) (hpc : IsContext s p pc) (hseq : c.seq = max x.seq pc.seq)
      (hdesc : c.snaps.Pairwise (· > ·))
      (hsnaps : ∀ n, n ∈ c.snaps ↔ n ∈ x.mySnaps ∨ n ∈ x.priorParentSnaps ∨
        (n ∈ pc.snaps ∧ x.parentSince ≤ n)) : IsContext s r c

end SnapState

end CephDokan.Client
