import CephDokan.Client.Read

/-!
# Writing a file

`Client::_write` and `uninline_data`, with the references they take and the callbacks that
release some of them later. What the MDS, the OSDs and the cacher answer is an argument.
-/

namespace CephDokan.Client

def ebadf : ℤ := 9

def efbig : ℤ := 27

def enospc : ℤ := 28

def edquot : ℤ := 122

/-- `CEPH_INLINE_NONE` -/
def inlineNone : ℕ := 2 ^ 64 - 1

/-- `CEPH_INLINE_MAX_SIZE` -/
def inlineMaxSize : ℕ := 65536

/-! ### References -/

/-- The capability bits that `_write` holds references on. -/
inductive Cap
  | wr
  | buffer
  | cache
  deriving DecidableEq, Repr

/-- `in->cap_refs`, the references on the inode, and `unsafe_sync_write`. -/
structure Refs where
  caps : Cap → ℕ
  inode : ℕ
  unsafeSyncWrite : ℕ

namespace Refs

/-- `put_inode` -/
def putInode (r : Refs) : Run Refs := do
  assertThat (0 < r.inode)
  pure { r with inode := r.inode - 1 }

/-- `get_cap_ref` on one bit: the first reference on the buffer or the cache holds the inode. -/
def getCapRef (r : Refs) (c : Cap) : Refs :=
  { r with
    caps := Function.update r.caps c (r.caps c + 1)
    inode := if c ≠ .wr ∧ r.caps c = 0 then r.inode + 1 else r.inode }

/-- `put_cap_ref` on one bit. -/
def putCapRef (r : Refs) (c : Cap) : Run Refs := do
  assertThat (0 < r.caps c)
  let r' := { r with caps := Function.update r.caps c (r.caps c - 1) }
  if c ≠ .wr ∧ r.caps c = 1 then r'.putInode else pure r'

end Refs

/-- What will release references after the call: nothing, the commit of a synchronous write,
or the end of the writeback of the file. -/
inductive Commit
  | none
  | syncCommit
  | flushed
  deriving DecidableEq, Repr

/-- `sync_write_commit` and `_flushed`. -/
def Commit.release (r : Refs) : Commit → Run Refs
  | .none => pure r
  | .syncCommit => do
    assertThat (0 < r.unsafeSyncWrite)
    let r ← Refs.putCapRef { r with unsafeSyncWrite := r.unsafeSyncWrite - 1 } .buffer
    r.putInode
  | .flushed => do
    let r ← r.putCapRef .cache
    r.putCapRef .buffer

/-! ### The file -/

structure Inode where
  size : ℕ
  mtime : ℕ
  inlineVersion : ℕ
  inlineData : Bytes
  deriving DecidableEq

/-- The inode of the client, and the attribute `inline_version` of the first object. -/
structure FileState where
  inode : Inode
  objVersion : ℕ
  deriving DecidableEq

abbrev Errno := { e : ℤ // e < 0 }

/-- What a call of `_write` meets. -/
structure WriteEnv where
  /-- `mdsmap->get_max_filesize()` -/
  maxFilesize : ℕ
  /-- `objecter->osdmap_full_flag()` -/
  osdFull : Bool := false
  /-- `is_quota_bytes_exceeded`, by the number of new bytes -/
  quotaExceeded : ℕ → Bool := fun _ => false
  /-- `_getattr(in, CEPH_STAT_CAP_SIZE)` of a seek to the end, and `in->size` after it -/
  seek : Except Errno ℕ
  /-- `_getattr(in, CEPH_STAT_CAP_INLINE_DATA)`, and the inline version and data after it -/
  fetch : Except Errno (ℕ × Bytes)
  /-- `get_caps`, by `endoff`, and whether `have` has `CEPH_CAP_FILE_BUFFER` -/
  caps : ℕ → Except Errno Bool
  clientOc : Bool := true
  maxInlineSize : ℕ
  /-- `in->oset.dirty_or_tx` is not 0 -/
  dirtyOrTx : Bool := false
  /-- the result of `objectcacher->file_write` -/
  fileWrite : ℤ := 0
  /-- the result of `filer->write_trunc` -/
  writeTrunc : ℤ := 0
  /-- the results of the writes to the objects -/
  osd : List ℤ := []
  /-- an error of the uninlining write -/
  uninline : ℤ := 0
  /-- `ceph_clock_now` -/
  now : ℕ

structure WriteResult where
  ret : ℤ
  file : FileState
  f : Fh
  refs : Refs
  commit : Commit
  /-- the results of the writes to objects that the call has started -/
  osd : List ℤ
  /-- the new bytes that the quota was asked for -/
  quota : Option ℕ
  /-- the end offset that the caps were asked for -/
  maxSize : Option ℕ

/-- `in->inline_data.clear()` and `in->inline_version = CEPH_INLINE_NONE`. -/
def FileState.clearInline (file : FileState) : FileState :=
  { file with inode := { file.inode with inlineData := [], inlineVersion := inlineNone } }

/-- `uninline_data`: the result that its completion receives, and the attribute after it. The
data goes to the first object, if the version is above that of the object. -/
def uninlineData (file : FileState) (err : ℤ) : ℤ × FileState :=
  let inode := file.inode
  if inode.inlineData.length = 0 then (0, file)
  else if err < 0 then (err, file)
  else if file.objVersion < inode.inlineVersion then
    (0, { file with objVersion := inode.inlineVersion })
  else (-ecanceled, file)

def inlineWrite (data : Bytes) (offset endoff : ℕ) (buf : Bytes) : Bytes :=
  let len := data.length
  let bl := if endoff < len then buf ++ data.drop endoff else buf
  let kept :=
    if offset < len then data.take offset
    else if len < offset then data ++ Bytes.zero (offset - len)
    else data
  kept ++ bl

/-- The state of a call of `_write` after it has the caps. -/
structure Writing where
  file : FileState
  refs : Refs
  commit : Commit := .none
  osd : List ℤ := []

variable (env : WriteEnv)

/-- The branch that writes to the object cacher: an error, or none. -/
def bufferedWrite (w : Writing) (buf : Bytes) : Run (ℤ × Writing) := do
  assertThat (0 < buf.length)
  let refs := if env.dirtyOrTx then w.refs else (w.refs.getCapRef .buffer).getCapRef .cache
  let refs ← (refs.getCapRef .buffer).putCapRef .buffer
  pure (min env.fileWrite 0,
    { w with
      refs := refs
      commit := if env.dirtyOrTx then w.commit else .flushed })

/-- The synchronous branch. The results of the writes reach `onfinish`, which does not keep
them. -/
def syncWrite (w : Writing) (buf : Bytes) : Run (ℤ × Writing) := do
  assertThat (0 < buf.length)
  let refs := { w.refs with
    inode := w.refs.inode + 1
    unsafeSyncWrite := w.refs.unsafeSyncWrite + 1 }.getCapRef .buffer
  if env.writeTrunc < 0 then pure (env.writeTrunc, { w with refs := refs })
  else pure (0, { w with refs := refs, commit := .syncCommit, osd := w.osd ++ env.osd })

variable (file : FileState)

/-- The code at `success`. -/
def writeSuccess (offset size : ℕ) : FileState :=
  { file with inode := { file.inode with
      size := if file.inode.size < size + offset then size + offset else file.inode.size
      mtime := env.now } }

/-- The code at `done`: what becomes of the uninlining, and the reference on `FILE_WR`. -/
def writeDone (r : ℤ) (w : Writing) (onuninline : Option ℤ) : Run (ℤ × Writing) := do
  let (r, file) :=
    match onuninline with
    | some ret =>
      if uninlined ret then (r, w.file.clearInline) else (ret, w.file)
    | none => (r, w.file)
  let refs ← w.refs.putCapRef .wr
  pure (r, { w with file := file, refs := refs })

/-- The write changes the inline data only; `buffer` says that `have` has
`CEPH_CAP_FILE_BUFFER`. -/
def staysInline (endoff : ℕ) (buffer : Bool) : Bool :=
  file.inode.inlineVersion < inlineNone ∧
    ¬(env.maxInlineSize < endoff ∨ inlineMaxSize < endoff ∨ buffer = false)

/-- The part of `_write` that writes to the inline data. -/
def writeInline (refs : Refs) (offset endoff : ℕ) (buf : Bytes) : Run (ℤ × Writing) := do
  let refs ← (refs.getCapRef .buffer).putCapRef .buffer
  let file := { file with inode := { file.inode with
    inlineData := inlineWrite file.inode.inlineData offset endoff buf
    inlineVersion := file.inode.inlineVersion + 1 } }
  writeDone (toInt buf.length) ⟨writeSuccess env file offset buf.length, refs, .none, []⟩ none

/-- The uninlining that a write to the objects starts with, if the file is inline; `err` is an
error of its write. -/
def startUninline (err : ℤ) (file : FileState) : Option ℤ × FileState :=
  if file.inode.inlineVersion < inlineNone then
    let (ret, file) := uninlineData file err
    (some ret, file)
  else (none, file)

/-- The part of `_write` that writes to the objects. -/
def writeObjects (refs : Refs) (offset : ℕ) (buf : Bytes) (buffer : Bool) : Run (ℤ × Writing) := do
  let (un, file) := startUninline env.uninline file
  let w : Writing := { file := file, refs := refs, osd := un.toList }
  let (r, w) ←
    if env.clientOc && buffer then bufferedWrite env w buf else syncWrite env w buf
  if r < 0 then writeDone r w un
  else
    writeDone (toInt buf.length) { w with file := writeSuccess env w.file offset buf.length } un

/-- The part of `_write` that has the caps. -/
def writeData (refs : Refs) (offset endoff : ℕ) (buf : Bytes) (buffer : Bool) : Run (ℤ × Writing) :=
  if staysInline env file endoff buffer then writeInline env file refs offset endoff buf
  else writeObjects env file refs offset buf buffer

/-- `_lseek(f, 0, SEEK_END)` for a handle with `O_APPEND`, of which the result is not looked at. -/
def seekEnd (f : Fh) : FileState × Fh :=
  match f.append, env.seek with
  | true, .ok n => ({ file with inode := { file.inode with size := n } }, { f with pos := n })
  | _, _ => (file, f)

/-- Where the write goes: the offset, or the position of the handle, which then moves. -/
def position (f : Fh) (offset : ℤ) (size : ℕ) : Run (FileState × Fh × ℕ) := do
  let f ← f.lockPos offset
  if 0 ≤ offset then pure (file, f, offset.toNat)
  else
    let (file, f) := seekEnd env file f
    pure (file, { f with pos := f.pos + size, posLocked := false }, f.pos)

def fetchInline (fetch : Except Errno (ℕ × Bytes)) (file : FileState) :
    Run (Except Errno FileState) :=
  if file.inode.inlineVersion = 0 then
    match fetch with
    | .error e => pure (.error e)
    | .ok (version, data) => do
      assertThat (0 < version)
      pure (.ok { file with inode := { file.inode with
        inlineVersion := version
        inlineData := data } })
  else pure (.ok file)

/-- A call that has what it needs to write, with the offset it writes at. -/
structure Ready where
  file : FileState
  f : Fh
  offset : ℕ
  buffer : Bool
  quota : Option ℕ

/-- `(uint64_t)(offset + size)` -/
def endOffset (offset : ℤ) (size : ℕ) : ℕ := ((offset + size) % 2 ^ 64).toNat

/-- `_write` up to `get_caps`: a result, or what the rest needs. The end offset is computed from
`offset` as it was passed. -/
def prepareWrite (f : Fh) (refs : Refs) (offset : ℤ) (size : ℕ) : Run (WriteResult ⊕ Ready) := do
  let endoff := endOffset offset size
  let quota := if file.inode.size < endoff then some (endoff - file.inode.size) else none
  if env.maxFilesize < endoff then pure (.inl ⟨-efbig, file, f, refs, .none, [], none, none⟩)
  else if env.osdFull then pure (.inl ⟨-enospc, file, f, refs, .none, [], none, none⟩)
  else if f.wr = false then pure (.inl ⟨-ebadf, file, f, refs, .none, [], none, none⟩)
  else if quota.any env.quotaExceeded then
    pure (.inl ⟨-edquot, file, f, refs, .none, [], quota, none⟩)
  else
    let (file, f, offset) ← position env file f offset size
    match ← fetchInline env.fetch file with
    | .error e => pure (.inl ⟨e, file, f, refs, .none, [], quota, none⟩)
    | .ok file =>
      match env.caps endoff with
      | .error e => pure (.inl ⟨e, file, f, refs, .none, [], quota, some endoff⟩)
      | .ok buffer => pure (.inr ⟨file, f, offset, buffer, quota⟩)

/-- `_write` -/
def write (f : Fh) (refs : Refs) (offset : ℤ) (buf : Bytes) :
    Run WriteResult := do
  match ← prepareWrite env file f refs offset buf.length with
  | .inl res => pure res
  | .inr s =>
    let endoff := endOffset offset buf.length
    let (r, w) ← writeData env s.file (refs.getCapRef .wr) s.offset endoff buf s.buffer
    pure ⟨r, w.file, s.f, w.refs, w.commit, w.osd, s.quota, some endoff⟩

end CephDokan.Client
