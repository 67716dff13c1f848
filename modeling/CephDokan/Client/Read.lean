import CephDokan.Common.Buffer
import CephDokan.Lib.FileBytes

/-!
# Reading a file

`Client::_read` with its retry loop, `_read_async` and `_read_sync`. What the caps, the cacher,
the OSDs and the MDS answer in a pass is an argument.
-/

namespace CephDokan.Client

open FileBytes

def enoent : ℤ := 2

def ecanceled : ℤ := 125

/-- Narrowing to `int`. -/
@[irreducible]
def toInt (n : ℕ) : ℤ := Int.bmod n (2 ^ 32)

theorem toInt_of_lt {n} (h : n < 2 ^ 31) : toInt n = n := by
  unfold toInt
  rw [Int.bmod_eq_of_le] <;> omega

theorem toInt_lt (n : ℕ) : toInt n < 2 ^ 31 := by
  unfold toInt
  have := Int.bmod_lt (x := n) (m := 2 ^ 32) (by decide)
  omega

theorem toInt_le (n : ℕ) : toInt n ≤ n := by
  unfold toInt
  rw [Int.bmod_def]
  split_ifs <;> omega

/-- The reply to the read of `_read_sync`, and `in->size` when the lock is held again. -/
structure Reply where
  result : Except ℤ Bytes
  size : ℕ

/-- What one pass of `_read` meets. -/
structure Round where
  /-- `get_caps`, and whether `have` has `CEPH_CAP_FILE_CACHE` -/
  caps : Except ℤ Bool
  /-- `in->size` -/
  size : ℕ
  /-- `in->inline_data` while `in->inline_version < CEPH_INLINE_NONE` -/
  inlined : Option Bytes
  /-- `objectcacher->file_read` at an offset, with a length -/
  fileRead : ℕ → ℕ → Except ℤ Bytes
  /-- `filer->read_trunc` at an offset, with a length -/
  osd : ℕ → ℕ → Reply
  /-- `_getattr(in, CEPH_STAT_CAP_SIZE)`, and `in->size` after it -/
  getattr : Except ℤ ℕ
  /-- the result of the write that `uninline_data` starts -/
  uninline : ℤ

/-- The variables of `_read` that a retry keeps, and the number of the pass. -/
structure Pass where
  n : ℕ
  offset : ℕ
  size : ℕ
  bl : Bytes

/-- The part of `_read` that answers from `in->inline_data`. -/
def readInline (data : Bytes) (fileSize : ℕ) (p : Pass) : Run Bytes :=
  let len := data.length
  let endoff := min (u64 (p.offset + p.size)) fileSize
  if p.offset < len then
    if endoff ≤ len then data.substrOf p.offset (u32 (sub64 endoff p.offset))
    else do
      let bl ← data.substrOf p.offset (len - p.offset)
      pure (bl ++ Bytes.zero (endoff - len))
  else if p.offset < endoff then pure (p.bl ++ Bytes.zero (endoff - p.offset))
  else pure p.bl

variable (rd : Round)

/-- `_read_async`: nothing, or the new contents of the buffer. `file_to_extents` does not take
an empty range. -/
def readAsync (off len : ℕ) : Run (Except ℤ (Option Bytes)) :=
  if rd.size ≤ off then pure (.ok none)
  else do
    let len := if rd.size < u64 (off + len) then rd.size - off else len
    assertThat (0 < len)
    pure ((rd.fileRead off len).map some)

/-- A short read is filled up with zeros to the known end of the file; the flag is `checkeof`. -/
def fillTail (off left size : ℕ) (tbl : Bytes) : Bytes × Bool :=
  let pos := off + tbl.length
  let left := left - tbl.length
  if pos < size then
    let some := min (size - pos) left
    (tbl ++ Bytes.zero some, decide (some ≠ left))
  else (tbl, true)

/-- What the reply has read: `ENOENT` counts as no bytes. -/
def Reply.bytes (reply : Reply) : Except ℤ Bytes :=
  match reply.result with
  | .error e => if e = -enoent then .ok [] else .error e
  | .ok tbl => .ok tbl

/-- `_read_sync`: what it appends, `checkeof`, and `in->size`. A full read ends the loop and a
short one returns from it. -/
def readSync (off len : ℕ) : Except ℤ (Bytes × Bool × ℕ) :=
  let left := toInt len
  if left ≤ 0 then .ok ([], false, rd.size)
  else
    let reply := rd.osd off left.toNat
    reply.bytes.map fun tbl =>
      if tbl.length < left.toNat then
        let (piece, checkeof) := fillTail off left.toNat reply.size tbl
        (piece, checkeof, reply.size)
      else (tbl, false, reply.size)

/-- How the passes end: what `r` and the buffer are before `done`, `in->size`, and the result
of an uninlining that is waited for. -/
structure ReadEnd where
  r : Except ℤ Bytes
  size : ℕ
  onuninline : Option ℤ := none
  deriving DecidableEq

inductive Outcome
  | retry (p : Pass)
  | done (e : ReadEnd)

/-- What a pass does with the result of `_read_sync`. A retry forgets the uninlining that the
pass has started. -/
def afterSync (p : Pass) : Except ℤ (Bytes × Bool × ℕ) → Outcome
  | .error e => .done ⟨.error e, rd.size, rd.inlined.map fun _ => rd.uninline⟩
  | .ok (piece, false, size) =>
    .done ⟨.ok (p.bl ++ piece), size, rd.inlined.map fun _ => rd.uninline⟩
  | .ok (piece, true, _) =>
    match rd.getattr with
    | .error e => .done ⟨.error e, rd.size, rd.inlined.map fun _ => rd.uninline⟩
    | .ok size =>
      if p.offset + piece.length < size then
        .retry ⟨p.n + 1, p.offset + piece.length, p.size - piece.length, p.bl ++ piece⟩
      else .done ⟨.ok (p.bl ++ piece), size, rd.inlined.map fun _ => rd.uninline⟩

def syncRound (p : Pass) : Outcome := afterSync rd p (readSync rd p.offset p.size)

/-- What a pass does with the result of `_read_async`. -/
def afterAsync (p : Pass) : Except ℤ (Option Bytes) → Outcome
  | .error e => .done ⟨.error e, rd.size, none⟩
  | .ok bl => .done ⟨.ok (bl.getD p.bl), rd.size, none⟩

def asyncRound (p : Pass) : Run Outcome := do
  let res ← readAsync rd p.offset p.size
  pure (afterAsync rd p res)

/-- One pass of `_read` from `retry` on; `useCache` is `client_oc` without
`client_debug_force_sync_read`. -/
def readRound (useCache : Bool) (rd : Round) (p : Pass) : Run Outcome :=
  match rd.caps with
  | .error e => pure (.done ⟨.error e, rd.size, none⟩)
  | .ok cache =>
    match rd.inlined, cache with
    | some data, true => do
      let bl ← readInline data rd.size p
      pure (.done ⟨.ok bl, rd.size, none⟩)
    | _, _ =>
      if useCache && cache then asyncRound rd p else pure (syncRound rd p)

/-- The passes of `_read`, at most `fuel` of them. -/
def readLoop (useCache : Bool) (env : ℕ → Round) : ℕ → Pass → Run ReadEnd
  | 0, _ => .error .diverged
  | fuel + 1, p => do
    match ← readRound useCache (env p.n) p with
    | .retry p => readLoop useCache env fuel p
    | .done e => pure e

/-- `Fh`: the position and its lock, `O_APPEND`, and whether `mode` has `CEPH_FILE_MODE_WR`. -/
structure Fh where
  pos : ℕ
  posLocked : Bool
  append : Bool
  wr : Bool
  deriving DecidableEq, Repr

def uninlined (ret : ℤ) : Bool := 0 ≤ ret ∨ ret = -ecanceled

/-- The code at `done`: an uninlining that failed takes the place of the result. -/
def ReadEnd.result (e : ReadEnd) : Except ℤ Bytes :=
  match e.onuninline with
  | some ret => if uninlined ret then e.r else .error ret
  | none => e.r

/-- The offset that a call with `offset` is about: the position of the handle, if negative. -/
def Fh.start (f : Fh) (offset : ℤ) : ℕ := if offset < 0 then f.pos else offset.toNat

/-- `lock_fh_pos`, for a call that is about the position. One that finds it locked waits, and an
earlier call on the handle that has left it locked does not unlock it any more. -/
def Fh.lockPos (f : Fh) (offset : ℤ) : Run Fh :=
  if 0 ≤ offset then pure f
  else if f.posLocked then .error .diverged
  else pure { f with posLocked := true }

theorem Fh.lockPos_eq {f f' : Fh} {offset : ℤ} (h : f.lockPos offset = .ok f') :
    f'.pos = f.pos ∧ f'.append = f.append := by
  unfold lockPos at h
  split_ifs at h <;> cases h <;> exact ⟨rfl, rfl⟩

/-- `_read`, but for the fetching of the inline data: how it ends and the handle. The position
moves and is unlocked if the passes end without an error. -/
def read (useCache : Bool) (env : ℕ → Round) (fuel : ℕ) (f : Fh) (offset : ℤ) (size : ℕ) :
    Run (ReadEnd × Fh) := do
  let f ← f.lockPos offset
  let e ← readLoop useCache env fuel ⟨0, f.start offset, size, []⟩
  match e.r with
  | .ok bl =>
    pure (e, if offset < 0 then { f with pos := f.pos + bl.length, posLocked := false } else f)
  | .error _ => pure (e, f)

end CephDokan.Client
