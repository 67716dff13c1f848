import CephDokan.Dokan.Revise
import CephDokan.Lib.FileBytes
import CephDokan.Lib.Trace

/-!
# The callbacks of the drive

The Dokan callbacks that open, change, delete and close a file, over the calls of libcephfs
they make. What the callbacks learn from outside, the answers of the permission service, of
the ACL check and of the attribute query and the errors of the calls, is an argument.
-/

namespace CephDokan.Dokan

open Function

/-! ### The volume below the drive -/

/-- `S_ISREG`, `S_ISDIR` -/
inductive Kind
  | reg
  | dir
  | other
  deriving DecidableEq, Repr

structure Node where
  ino : ℕ
  kind : Kind
  deriving DecidableEq

/-- An open file of the client: its inode and whether `mode` has `CEPH_FILE_MODE_WR`. -/
structure Fh where
  ino : ℕ
  wr : Bool
  deriving DecidableEq

/-- The flags of `ceph_open` beside the access mode. -/
structure OpenFlags where
  wr : Bool := false
  creat : Bool := false
  excl : Bool := false
  trunc : Bool := false

structure Volume where
  names : Path → Option Node
  data : ℕ → Bytes
  fds : List (ℕ × Fh)
  nextIno : ℕ
  maxFilesize : ℕ

def enoent : ℤ := 2

def ebadf : ℤ := 9

def eexist : ℤ := 17

def efbig : ℤ := 27

def enospc : ℤ := 28

def edquot : ℤ := 122

namespace Volume

/-- The first number from `n` on that is not in use. -/
def firstFree (used : List ℕ) : ℕ → ℕ → ℕ
  | 0, n => n
  | fuel + 1, n => if n ∈ used then firstFree used fuel (n + 1) else n

variable (v : Volume)

/-- `get_fd` -/
def getFd : ℕ := firstFree (v.fds.map Prod.fst) (v.fds.length + 1) 10

def setData (ino : ℕ) (bytes : Bytes) : Volume :=
  { v with data := update v.data ino bytes }

def addFd (fh : Fh) : ℤ × Volume :=
  (v.getFd, { v with fds := (v.getFd, fh) :: v.fds })

variable (path : Path)

/-- `ceph_stat`, which may fail with the error `err`. -/
def cephStat (err : ℤ) : Option Node :=
  if err = 0 then v.names path else none

/-- `ceph_open`, which may also fail with the error `err`. -/
def cephOpen (flags : OpenFlags) (err : ℤ) : ℤ × Volume :=
  if err < 0 then (err, v)
  else
    match v.names path with
    | some node =>
      if flags.creat ∧ flags.excl then (-eexist, v)
      else if flags.trunc then (v.setData node.ino []).addFd ⟨node.ino, flags.wr⟩
      else v.addFd ⟨node.ino, flags.wr⟩
    | none =>
      if flags.creat then
        ({ v with
            names := update v.names path (some ⟨v.nextIno, .reg⟩)
            data := update v.data v.nextIno []
            nextIno := v.nextIno + 1 }).addFd ⟨v.nextIno, flags.wr⟩
      else (-enoent, v)

/-- `ceph_close` -/
def cephClose (fd : ℕ) : Volume :=
  { v with fds := v.fds.filter fun e => e.1 ≠ fd }

/-- `ceph_unlink` -/
def cephUnlink (err : ℤ) : Volume :=
  if err < 0 then v
  else
    match v.names path with
    | some ⟨_, .dir⟩ => v
    | _ => { v with names := update v.names path none }

/-- `ceph_rmdir`; a directory that is not empty is one of the errors. -/
def cephRmdir (err : ℤ) : Volume :=
  if err < 0 then v
  else
    match v.names path with
    | some ⟨_, .dir⟩ => { v with names := update v.names path none }
    | _ => v

/-- `ceph_mkdir` -/
def cephMkdir (err : ℤ) : ℤ × Volume :=
  if err < 0 then (err, v)
  else
    match v.names path with
    | some _ => (-eexist, v)
    | none =>
      (0, { v with
        names := update v.names path (some ⟨v.nextIno, .dir⟩)
        nextIno := v.nextIno + 1 })

/-- `ceph_rename` -/
def cephRename (old new : Path) (err : ℤ) : ℤ × Volume :=
  if err < 0 then (err, v)
  else
    (0, { v with names := update (update v.names new (v.names old)) old none })

def size (ino : ℕ) : ℕ := (v.data ino).length

/-- `Client::write`. `full` is the flag of the OSD map and `quota` says that the quota does not
allow the file to grow. -/
def cephWrite (fd : ℕ) (buf : Bytes) (offset : ℕ) (full quota : Bool) (err : ℤ) :
    ℤ × Volume :=
  match v.fds.lookup fd with
  | none => (-ebadf, v)
  | some fh =>
    if v.maxFilesize < offset + buf.length then (-efbig, v)
    else if full then (-enospc, v)
    else if fh.wr = false then (-ebadf, v)
    else if v.size fh.ino < offset + buf.length ∧ quota then (-edquot, v)
    else if err < 0 then (err, v)
    else (buf.length, v.setData fh.ino (FileBytes.writeAt 0 (v.data fh.ino) offset buf))

/-- `(unsigned long)attr->st_size`, which has 32 bits on Windows. -/
def ulongSize (length : ℤ) : ℕ := (length % 2 ^ 32).toNat

/-- `Client::ftruncate`, which ends in `_setattr`: there is no check of the open mode. The tests see
the low half of the size, the request carries all of it. -/
def cephFtruncate (fd : ℕ) (length : ℤ) (quota : Bool) (err : ℤ) : ℤ × Volume :=
  match v.fds.lookup fd with
  | none => (-ebadf, v)
  | some fh =>
    if v.size fh.ino < ulongSize length ∧ quota then (-edquot, v)
    else if v.maxFilesize ≤ ulongSize length then (-efbig, v)
    else if err < 0 then (err, v)
    else (0, v.setData fh.ino (FileBytes.resize 0 (v.data fh.ino) (length % 2 ^ 64).toNat))

end Volume

/-! ### The handle -/

/-- `struct fd_context`, which the callbacks keep in `DokanFileInfo->Context`. -/
structure FdContext where
  fd : ℕ := 0
  deleteOnClose : Bool := false
  readOnly : Bool := false
  deriving DecidableEq

/-- `DOKAN_FILE_INFO` -/
structure FileInfo where
  context : FdContext := {}
  isDirectory : Bool := false
  deleteOnClose : Bool := false
  deriving DecidableEq

structure State where
  volume : Volume
  info : FileInfo

structure Answers where
  /-- `g_UseACL` -/
  useACL : Bool := false
  /-- an error of `ceph_stat` -/
  stat : ℤ := 0
  /-- `permission_walk` or `permission_walk_parent` -/
  permission : ℤ := 0
  /-- `GetUI2ActionResult` -/
  ui2 : Ret := .allow
  /-- `GetFileAttributesW` -/
  attributes : BitVec 32 := 0
  /-- the error of `CreateFileW(L"readonly.txt")`, 0 for none -/
  readonlyTxt : ℤ := 0
  /-- an error of `ceph_open` or `ceph_opendir` -/
  cephOpen : ℤ := 0
  /-- an error of the call that follows -/
  ceph : ℤ := 0
  full : Bool := false
  quota : Bool := false
  /-- the names that `ceph_readdir` delivers -/
  listing : List (List Char) := []

def errorFileNotFound : ℤ := 2

def errorPathNotFound : ℤ := 3

def errorAccessDenied : ℤ := 5

def errorFileExists : ℤ := 80

def errorDirNotEmpty : ℤ := 145

def errorAlreadyExists : ℤ := 183

def genericRead : BitVec 32 := 0x80000000

def genericWrite : BitVec 32 := 0x40000000

def fileShareRead : BitVec 32 := 0x1

def fileShareWrite : BitVec 32 := 0x2

def fileShareDelete : BitVec 32 := 0x4

def standardRightsRead : BitVec 32 := 0x20000

def standardRightsWrite : BitVec 32 := 0x20000

def fileAttributeReadonly : BitVec 32 := 0x1

def fileAttributeTemporary : BitVec 32 := 0x100

def fileFlagDeleteOnClose : BitVec 32 := 0x04000000

/-- `val & flag` as a condition. -/
def has (val flag : BitVec 32) : Bool := val &&& flag ≠ 0

/-- `ToLinuxFilePath` -/
def toLinuxFilePath (path : Path) : Path := path.map fun c => if c = '\\' then '/' else c

/-- `GetAbsPath`, with the mount point it starts with. -/
def getAbsPath (fileName : Path) : Path := "M:".toList ++ fileName

/-- `CreationDisposition` -/
inductive Disposition
  | createNew
  | createAlways
  | openExisting
  | openAlways
  | truncateExisting
  | unknown
  deriving DecidableEq, Repr

structure CreateRequest where
  fileName : Path
  accessMode : BitVec 32
  disposition : Disposition
  flagsAndAttributes : BitVec 32

namespace CreateRequest

def wantsRead (req : CreateRequest) : Bool :=
  has req.accessMode genericRead || has req.accessMode fileShareRead ||
    has req.accessMode standardRightsRead || has req.accessMode fileShareRead

def wantsWrite (req : CreateRequest) : Bool :=
  has req.accessMode genericWrite || has req.accessMode fileShareWrite ||
    has req.accessMode standardRightsWrite || has req.accessMode fileShareDelete

/-- `fdc.delete_on_close` -/
def deleteOnClose (req : CreateRequest) : Bool :=
  has req.flagsAndAttributes fileAttributeTemporary ||
    has req.flagsAndAttributes fileFlagDeleteOnClose

end CreateRequest

namespace State

variable (s : State)

/-- Store a handle in the context: `fdc.fd = fd` and the `memcpy`. -/
def storeContext (volume : Volume) (fdc : FdContext) : State :=
  { volume := volume, info := { s.info with context := fdc } }

variable (req : CreateRequest)

/-- The code of `TRUNCATE_EXISTING` and `CREATE_ALWAYS` for a file that exists. -/
def truncateRegular (ans : Answers) (ret : ℤ) : ℤ × State :=
  if ans.useACL ∧ ans.permission ≠ 0 then (-errorAccessDenied, s)
  else
    let (fd, volume) := s.volume.cephOpen (toLinuxFilePath req.fileName)
      { wr := true, creat := true, trunc := true } ans.cephOpen
    if fd < 0 then (fd, s)
    else (ret, s.storeContext volume { fd := fd.toNat, deleteOnClose := req.deleteOnClose })

/-- The code of `OPEN_ALWAYS` and `OPEN_EXISTING` for a file that exists. -/
def openRegular (ans : Answers) (ret : ℤ) : ℤ × State :=
  if req.wantsRead ∧ ans.useACL ∧ ans.permission ≠ 0 then (-errorAccessDenied, s)
  else
    let readOnly := req.wantsWrite && has ans.attributes fileAttributeReadonly
    if readOnly ∧ ans.readonlyTxt ≠ 0 then (-ans.readonlyTxt, s)
    else
      let (fd, volume) := s.volume.cephOpen (toLinuxFilePath req.fileName)
        { wr := !readOnly } ans.cephOpen
      if fd < 0 then (fd, s)
      else
        (ret, s.storeContext volume
          { fd := fd.toNat, deleteOnClose := req.deleteOnClose, readOnly := readOnly })

/-- The code of `CREATE_NEW`, `CREATE_ALWAYS` and `OPEN_ALWAYS` for a file that does not exist;
`least` is the least descriptor that is not taken for an error. -/
def createMissing (ans : Answers) (flags : OpenFlags) (least : ℤ) : ℤ × State :=
  if ans.useACL ∧ ans.permission ≠ 0 then (-errorAccessDenied, s)
  else if fileCreate (getAbsPath req.fileName) ans.ui2 = false then (-errorAccessDenied, s)
  else
    let (fd, volume) := s.volume.cephOpen (toLinuxFilePath req.fileName) flags ans.cephOpen
    if fd < least then (-1, s)
    else (0, s.storeContext volume { fd := fd.toNat, deleteOnClose := req.deleteOnClose })

/-- `WinCephCreateFile` -/
def createFile (ans : Answers) : ℤ × State :=
  let fileName := toLinuxFilePath req.fileName
  if fileName = ['/'] then (0, s)
  else
    match s.volume.cephStat fileName ans.stat with
    | some ⟨_, .reg⟩ =>
      match req.disposition with
      | .createNew => (-errorFileExists, s)
      | .truncateExisting => s.truncateRegular req ans 0
      | .openAlways => s.openRegular req ans errorAlreadyExists
      | .openExisting => s.openRegular req ans 0
      | .createAlways => s.truncateRegular req ans errorAlreadyExists
      | .unknown => (-1, s)
    | some ⟨_, .dir⟩ =>
      match req.disposition with
      | .createNew => (-errorFileExists, s)
      | .truncateExisting => (0, s)
      | .openAlways => (errorAlreadyExists, s)
      | .openExisting => (0, s)
      | .createAlways => (errorAlreadyExists, s)
      | .unknown => (-1, s)
    | some ⟨_, .other⟩ => (-1, s)
    | none =>
      match req.disposition with
      | .createNew => s.createMissing req ans { wr := true, creat := true, excl := true } 0
      | .createAlways => s.createMissing req ans { wr := true, creat := true, trunc := true } 0
      | .openAlways => s.createMissing req ans { wr := true, creat := true } 1
      | .openExisting => if fileName.head? = some '/' then (-errorFileNotFound, s) else (0, s)
      | .truncateExisting => (-errorFileNotFound, s)
      | .unknown => (-1, s)

variable (fileName : Path)

/-- `WinCephCreateDirectory`, which stores no context. -/
def createDirectory (ans : Answers) : ℤ × State :=
  let path := toLinuxFilePath fileName
  if path = ['/'] then (0, s)
  else if fileCreate (getAbsPath fileName) ans.ui2 = false then (-errorAccessDenied, s)
  else
    match s.volume.cephStat path ans.stat with
    | some ⟨_, .dir⟩ => (-errorAlreadyExists, s)
    | _ =>
      let (ret, volume) := s.volume.cephMkdir path ans.ceph
      if ret = -enoent then (-errorPathNotFound, s)
      else if ret ≠ 0 then (-5, s)
      else (0, { s with volume := volume })

/-- `WinCephOpenDirectory` -/
def openDirectory (ans : Answers) : ℤ × State :=
  match s.volume.cephStat (toLinuxFilePath fileName) ans.stat with
  | none => (-1, s)
  | some node =>
    if ans.useACL ∧ ans.permission ≠ 0 then (-errorAccessDenied, s)
    else if node.kind ≠ .dir then (-1, s)
    else
      let (fd, volume) := s.volume.cephOpen (toLinuxFilePath fileName) {} ans.cephOpen
      if fd ≤ 0 then (-1, s) else (0, s.storeContext volume { fd := fd.toNat })

/-- `WinCephWriteFile`. Without a descriptor the file is opened for this write only, and for
reading. -/
def writeFile (buf : Bytes) (offset : ℤ) (ans : Answers) :
    ℤ × State :=
  if offset > 1024 * 1024 * 1024 * 1024 ∨ offset < 0 ∨ buf.length > 128 * 1024 * 1024 then (-1, s)
  else if buf.length = 0 then (0, s)
  else
    let fdc := s.info.context
    if fdc.readOnly then (-errorAccessDenied, s)
    else if fdc.fd = 0 then
      let (fd, volume) := s.volume.cephOpen (toLinuxFilePath fileName) {} ans.cephOpen
      if fd < 0 then (-1, s)
      else
        let (ret, volume) := volume.cephWrite fd.toNat buf offset.toNat ans.full ans.quota ans.ceph
        (if ret < 0 then ret else 0, { s with volume := volume.cephClose fd.toNat })
    else
      let (ret, volume) := s.volume.cephWrite fdc.fd buf offset.toNat ans.full ans.quota ans.ceph
      (if ret < 0 then ret else 0, { s with volume := volume })

/-- `WinCephSetEndOfFile` -/
def setEndOfFile (byteOffset : ℤ) (ans : Answers) : ℤ × State :=
  if s.info.context.fd = 0 then (-1, s)
  else
    let (ret, volume) := s.volume.cephFtruncate s.info.context.fd byteOffset ans.quota ans.ceph
    (if ret ≠ 0 then -1 else 0, { s with volume := volume })

/-- `WinCephSetAllocationSize` -/
def setAllocationSize (allocSize : ℤ) (ans : Answers) : ℤ × State :=
  if s.info.context.fd = 0 then (-1, s)
  else
    match s.volume.fds.lookup s.info.context.fd with
    | none => (-1, s)
    | some fh =>
      if ans.stat ≠ 0 then (-1, s)
      else if allocSize < s.volume.size fh.ino then
        let (ret, volume) := s.volume.cephFtruncate s.info.context.fd allocSize ans.quota ans.ceph
        (if ret ≠ 0 then -1 else 0, { s with volume := volume })
      else (0, s)

/-- `WinCephMoveFile`, with the answer `moves` of `FileMove`. -/
def moveFile (fileName newFileName : Path) (replaceIfExisting moves : Bool) (ans : Answers) :
    ℤ × State :=
  let taken : Bool :=
    match s.volume.cephStat (toLinuxFilePath newFileName) ans.stat with
    | some node =>
      s.info.isDirectory && node.kind = .dir || !s.info.isDirectory && node.kind = .reg
    | none => false
  if replaceIfExisting = false ∧ taken then (-errorAlreadyExists, s)
  else if moves = false then (-errorAccessDenied, s)
  else
    let (ret, volume) := s.volume.cephRename (toLinuxFilePath fileName)
      (toLinuxFilePath newFileName) ans.ceph
    (ret, { s with volume := volume })

/-- `WinCephCleanup` -/
def cleanup (ans : Answers) : ℤ × State :=
  if s.info.context = {} then (-1, s)
  else if s.info.deleteOnClose then
    if s.info.isDirectory then
      (0, { s with volume := s.volume.cephRmdir (toLinuxFilePath fileName) ans.ceph })
    else (0, { s with volume := s.volume.cephUnlink (toLinuxFilePath fileName) ans.ceph })
  else (0, s)

/-- `WinCephCloseFile` -/
def closeFile (ans : Answers) : ℤ × State :=
  if s.info.context = {} then (0, s)
  else
    let fdc := s.info.context
    let volume := s.volume.cephClose fdc.fd
    let info := { s.info with context := {} }
    if fdc.deleteOnClose ∧ s.info.isDirectory = false then
      (0, ⟨volume.cephUnlink (toLinuxFilePath fileName) ans.ceph, info⟩)
    else (0, ⟨volume, info⟩)

end State

/-- `WinCephDeleteFile` -/
def deleteFile (fileName : Path) (ans : Answers) : ℤ :=
  if fileDelete (getAbsPath fileName) ans.ui2 then 0 else -errorAccessDenied

/-- The loop of `WinCephDeleteDirectory` over the entries. -/
def isEmptyLoop : List (List Char) → ℤ
  | [] => 0
  | name :: rest =>
    if name ≠ ['.'] ∧ name ≠ ['.', '.'] then -errorDirNotEmpty else isEmptyLoop rest

/-- `WinCephDeleteDirectory` -/
def deleteDirectory (fileName : Path) (ans : Answers) : ℤ :=
  if fileDelete (getAbsPath fileName) ans.ui2 = false then -errorAccessDenied
  else if ans.cephOpen ≠ 0 then -1
  else isEmptyLoop ans.listing

/-! ### Runs of one handle -/

inductive Callback
  | writeFile (buf : Bytes) (offset : ℤ)
  | setEndOfFile (byteOffset : ℤ)
  | setAllocationSize (allocSize : ℤ)
  | deleteFile
  | deleteDirectory
  | moveFile (newFileName : Path) (replaceIfExisting moves : Bool)
  | cleanup
  | closeFile

/-- A callback on an open handle. After a delete callback that returns 0 Dokan sets
`DeleteOnClose`. -/
def State.call (s : State) (fileName : Path) (ans : Answers) : Callback → ℤ × State
  | .writeFile buf offset => s.writeFile fileName buf offset ans
  | .setEndOfFile byteOffset => s.setEndOfFile byteOffset ans
  | .setAllocationSize allocSize => s.setAllocationSize allocSize ans
  | .deleteFile =>
    let ret := Dokan.deleteFile fileName ans
    (ret, { s with info.deleteOnClose := s.info.deleteOnClose || decide (ret = 0) })
  | .deleteDirectory =>
    let ret := Dokan.deleteDirectory fileName ans
    (ret, { s with info.deleteOnClose := s.info.deleteOnClose || decide (ret = 0) })
  | .moveFile newFileName replaceIfExisting moves =>
    s.moveFile fileName newFileName replaceIfExisting moves ans
  | .cleanup => s.cleanup fileName ans
  | .closeFile => s.closeFile fileName ans

/-- What happens after an open: a callback on the handle, a withdrawn deletion, or anything that
others do to the volume. -/
inductive Event
  | callback (fileName : Path) (ans : Answers) (cb : Callback)
  | keep
  | others (volume : Volume)

inductive Step : Event → State → State → Prop
  | callback (s : State) (fileName : Path) (ans : Answers) (cb : Callback) :
      Step (.callback fileName ans cb) s (s.call fileName ans cb).2
  | keep (s : State) : Step .keep s { s with info.deleteOnClose := false }
  -- the descriptor of the handle is its own
  | others (s : State) (volume : Volume)
      (hfd : volume.fds.lookup s.info.context.fd = s.volume.fds.lookup s.info.context.fd) :
      Step (.others volume) s { s with volume := volume }

inductive Opening
  | createFile (req : CreateRequest)
  | createDirectory (fileName : Path)
  | openDirectory (fileName : Path)

def Opening.open (o : Opening) (s : State) (ans : Answers) : ℤ × State :=
  match o with
  | .createFile req => s.createFile req ans
  | .createDirectory fileName => s.createDirectory fileName ans
  | .openDirectory fileName => s.openDirectory fileName ans

end CephDokan.Dokan
