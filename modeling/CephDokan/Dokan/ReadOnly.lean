import CephDokan.Dokan.Deletion

/-!
# Handles that were opened read-only

`fd_context.read_only` is honoured by WriteFile alone. SetEndOfFile and SetAllocationSize reach
`Client::ftruncate`, which does not look at the open mode, and the dispositions that truncate do
not ask for the attribute.
-/

namespace CephDokan.Dokan

open State

/-- The handle is closed, or it is a read-only one on the file `ino`. -/
def Guarded (ino : ℕ) (s : State) : Prop :=
  s.info.context = {} ∨
    s.info.context.readOnly = true ∧ s.volume.fds.lookup s.info.context.fd = some ⟨ino, false⟩

/-- The size passes the tests of `_setattr`, which see its low half, the MDS sets it, and the file
has another one. -/
def Volume.Resized (v : Volume) (ino : ℕ) (length : ℤ) (quota : Bool) (err : ℤ) : Prop :=
  (v.size ino < Volume.ulongSize length → quota = false) ∧
    Volume.ulongSize length < v.maxFilesize ∧ 0 ≤ err ∧ (length % 2 ^ 64).toNat ≠ v.size ino

def State.Truncates (s : State) (ino : ℕ) (length : ℤ) (ans : Answers) : Prop :=
  s.info.context.fd ≠ 0 ∧ s.volume.Resized ino length ans.quota ans.ceph

def Callback.Resizes (s : State) (ino : ℕ) (ans : Answers) : Callback → Prop
  | .setEndOfFile byteOffset => s.Truncates ino byteOffset ans
  | .setAllocationSize allocSize =>
    ans.stat = 0 ∧ allocSize < s.volume.size ino ∧ s.Truncates ino allocSize ans
  | _ => False

/-! ### The calls of libcephfs -/

namespace Volume

variable (v : Volume)

theorem lookup_addFd (fh : Fh) : (v.addFd fh).2.fds.lookup v.getFd = some fh := by
  simp [addFd]

theorem cephOpen_plain (path : Path) (wr : Bool) (err : ℤ) :
    (v.cephOpen path { wr := wr } err).1 < 0 ∧ (v.cephOpen path { wr := wr } err).2 = v ∨
      ∃ node, v.names path = some node ∧
        v.cephOpen path { wr := wr } err = v.addFd ⟨node.ino, wr⟩ := by
  unfold cephOpen
  by_cases herr : err < 0
  · simp [herr]
  · cases v.names path with
    | none => simp [herr, enoent]
    | some node => simp [herr]

theorem cephWrite_of_not_wr {fd : ℕ} {fh : Fh} (buf : Bytes) (offset : ℕ) (full quota : Bool)
    (err : ℤ) (hfd : v.fds.lookup fd = some fh) (hwr : fh.wr = false) :
    (v.cephWrite fd buf offset full quota err).2 = v := by
  unfold cephWrite
  rw [hfd]
  dsimp only
  split_ifs <;> rfl

theorem cephFtruncate_fds (fd : ℕ) (length : ℤ) (quota : Bool) (err : ℤ) :
    (v.cephFtruncate fd length quota err).2.fds = v.fds := by
  unfold cephFtruncate
  cases v.fds.lookup fd with
  | none => rfl
  | some fh =>
    dsimp only
    split_ifs <;> rfl

theorem resize_eq_self_iff (bytes : Bytes) (n : ℕ) :
    FileBytes.resize 0 bytes n = bytes ↔ n = bytes.length := by
  constructor
  · intro h
    rw [← h, FileBytes.length_resize]
  · rintro rfl
    exact FileBytes.resize_length 0 bytes

theorem cephFtruncate_data_iff {fd ino : ℕ} {wr} (length : ℤ) (quota : Bool) (err : ℤ)
    (hfd : v.fds.lookup fd = some ⟨ino, wr⟩) :
    (v.cephFtruncate fd length quota err).2.data ino = v.data ino ↔
      ¬v.Resized ino length quota err := by
  unfold cephFtruncate
  rw [hfd]
  dsimp only
  split_ifs with hquota hbig herr
  · simp [Resized, hquota]
  · simp [Resized, hbig]
  · simp [Resized, herr]
  · have hpass : v.size ino < ulongSize length → quota = false := by
      intro hgrow
      simpa [hgrow] using hquota
    have hresized : v.Resized ino length quota err ↔ (length % 2 ^ 64).toNat ≠ v.size ino := by
      unfold Resized
      exact ⟨fun h => h.2.2.2, fun h => ⟨hpass, not_le.mp hbig, not_lt.mp herr, h⟩⟩
    rw [hresized, not_not]
    simp [setData, resize_eq_self_iff, size]

theorem le_firstFree (used : List ℕ) (fuel n : ℕ) : n ≤ firstFree used fuel n := by
  induction fuel generalizing n with
  | zero => exact le_rfl
  | succ fuel ih =>
    unfold firstFree
    split_ifs
    · exact (Nat.le_succ n).trans (ih (n + 1))
    · exact le_rfl

theorem getFd_ne_zero : v.getFd ≠ 0 :=
  (lt_of_lt_of_le (by decide) (le_firstFree _ _ 10)).ne'

end Volume

/-! ### One callback on a guarded handle -/

section Guarded

variable {ino : ℕ} {s : State}

/-- A write through the handle is refused, or made through a descriptor that does not allow it. -/
theorem Guarded.writeFile_data (h : Guarded ino s) (fileName : Path) (buf : Bytes) (offset : ℤ)
    (ans : Answers) : (s.writeFile fileName buf offset ans).2.volume.data = s.volume.data := by
  unfold writeFile
  rcases h with hctx | ⟨hro, -⟩
  · rw [hctx]
    simp only [Bool.false_eq_true, if_false, if_true]
    obtain ⟨hneg, hsame⟩ | ⟨node, _, hopen⟩ :=
      s.volume.cephOpen_plain (toLinuxFilePath fileName) false ans.cephOpen
    · split_ifs <;> rfl
    · have hwrite := (s.volume.addFd ⟨node.ino, false⟩).2.cephWrite_of_not_wr buf offset.toNat
        ans.full ans.quota ans.ceph (s.volume.lookup_addFd ⟨node.ino, false⟩) rfl
      have hfd : (s.volume.addFd ⟨node.ino, false⟩).1.toNat = s.volume.getFd := rfl
      have hnonneg : ¬(s.volume.addFd ⟨node.ino, false⟩).1 < 0 := by simp [Volume.addFd]
      simp only [hopen, if_neg hnonneg, hfd, hwrite]
      split_ifs <;> rfl
  · simp only [hro, if_true]
    split_ifs <;> rfl

theorem setEndOfFile_data_iff (s : State) (ino : ℕ) (byteOffset : ℤ) (ans : Answers)
    (hfd : s.info.context.fd = 0 ∨ s.volume.fds.lookup s.info.context.fd = some ⟨ino, false⟩) :
    (s.setEndOfFile byteOffset ans).2.volume.data ino = s.volume.data ino ↔
      ¬s.Truncates ino byteOffset ans := by
  unfold setEndOfFile Truncates
  by_cases hzero : s.info.context.fd = 0
  · simp [hzero]
  · rw [if_neg hzero]
    exact (s.volume.cephFtruncate_data_iff byteOffset ans.quota ans.ceph
      (hfd.resolve_left hzero)).trans (by simp [hzero])

theorem setAllocationSize_data_iff (s : State) (ino : ℕ) (allocSize : ℤ) (ans : Answers)
    (hfd : s.info.context.fd = 0 ∨ s.volume.fds.lookup s.info.context.fd = some ⟨ino, false⟩) :
    (s.setAllocationSize allocSize ans).2.volume.data ino = s.volume.data ino ↔
      ¬(ans.stat = 0 ∧ allocSize < s.volume.size ino ∧ s.Truncates ino allocSize ans) := by
  unfold setAllocationSize Truncates
  by_cases hzero : s.info.context.fd = 0
  · simp [hzero]
  · have hlookup := hfd.resolve_left hzero
    rw [if_neg hzero, hlookup]
    by_cases hstat : ans.stat = 0
    · by_cases hless : allocSize < s.volume.size ino
      · simp only [hstat, hless, ne_eq, not_true_eq_false, if_false, if_true]
        exact (s.volume.cephFtruncate_data_iff allocSize ans.quota ans.ceph hlookup).trans
          (by simp [hzero])
      · simp [hstat, hless]
    · simp [hstat]

theorem cleanup_data (s : State) (fileName : Path) (ans : Answers) :
    (s.cleanup fileName ans).2.volume.data = s.volume.data := by
  unfold cleanup Volume.cephRmdir Volume.cephUnlink
  repeat' split
  all_goals rfl

theorem closeFile_data (s : State) (fileName : Path) (ans : Answers) :
    (s.closeFile fileName ans).2.volume.data = s.volume.data := by
  unfold closeFile Volume.cephUnlink
  dsimp only
  repeat' split
  all_goals rfl

theorem moveFile_data (s : State) (fileName newFileName : Path) (replaceIfExisting moves : Bool)
    (ans : Answers) : (s.moveFile fileName newFileName replaceIfExisting moves ans).2.volume.data =
      s.volume.data := by
  unfold moveFile Volume.cephRename
  dsimp only
  split_ifs <;> rfl

theorem Guarded.fd (h : Guarded ino s) :
    s.info.context.fd = 0 ∨ s.volume.fds.lookup s.info.context.fd = some ⟨ino, false⟩ := by
  rcases h with hctx | ⟨-, hfd⟩
  · exact .inl (by rw [hctx])
  · exact .inr hfd

theorem Guarded.call_data_iff (h : Guarded ino s) (fileName : Path) (ans : Answers)
    (cb : Callback) :
    (s.call fileName ans cb).2.volume.data ino = s.volume.data ino ↔ ¬cb.Resizes s ino ans := by
  cases cb with
  | writeFile buf offset =>
    simp [call, Callback.Resizes, h.writeFile_data fileName buf offset ans]
  | setEndOfFile byteOffset => exact setEndOfFile_data_iff s ino byteOffset ans h.fd
  | setAllocationSize allocSize => exact setAllocationSize_data_iff s ino allocSize ans h.fd
  | deleteFile => simp [call, Callback.Resizes]
  | deleteDirectory => simp [call, Callback.Resizes]
  | moveFile newFileName replaceIfExisting moves =>
    simp [call, Callback.Resizes, moveFile_data]
  | cleanup => simp [call, Callback.Resizes, cleanup_data]
  | closeFile => simp [call, Callback.Resizes, closeFile_data]

theorem call_context (s : State) (fileName : Path) (ans : Answers) {cb} (hcb : cb ≠ .closeFile) :
    (s.call fileName ans cb).2.info.context = s.info.context := by
  cases cb with
  | writeFile buf offset =>
    exact congrArg FileInfo.context (writeFile_info s fileName buf offset ans)
  | setEndOfFile byteOffset => exact congrArg FileInfo.context (setEndOfFile_info s byteOffset ans)
  | setAllocationSize allocSize =>
    exact congrArg FileInfo.context (setAllocationSize_info s allocSize ans)
  | deleteFile => rfl
  | deleteDirectory => rfl
  | moveFile newFileName replaceIfExisting moves =>
    exact congrArg FileInfo.context
      (moveFile_info s fileName newFileName replaceIfExisting moves ans)
  | cleanup => exact congrArg FileInfo.context (cleanup_info s fileName ans)
  | closeFile => exact absurd rfl hcb

theorem call_fds {s : State} (hro : s.info.context.readOnly = true) (fileName : Path)
    (ans : Answers) {cb} (hcb : cb ≠ .closeFile) :
    (s.call fileName ans cb).2.volume.fds = s.volume.fds := by
  cases cb with
  | writeFile buf offset =>
    unfold call writeFile
    simp only [hro, if_true]
    split_ifs <;> rfl
  | setEndOfFile byteOffset =>
    unfold call setEndOfFile
    dsimp only
    split_ifs
    · rfl
    · exact s.volume.cephFtruncate_fds _ _ _ _
    · exact s.volume.cephFtruncate_fds _ _ _ _
  | setAllocationSize allocSize =>
    unfold call setAllocationSize
    dsimp only
    repeat' split
    all_goals first | rfl | exact s.volume.cephFtruncate_fds _ _ _ _
  | deleteFile => rfl
  | deleteDirectory => rfl
  | moveFile newFileName replaceIfExisting moves =>
    unfold call moveFile Volume.cephRename
    dsimp only
    split_ifs <;> rfl
  | cleanup =>
    unfold call cleanup Volume.cephRmdir Volume.cephUnlink
    dsimp only
    repeat' split
    all_goals rfl
  | closeFile => exact absurd rfl hcb

theorem Guarded.step {t} {e : Event} (hstep : Step e s t) (h : Guarded ino s) : Guarded ino t := by
  cases hstep with
  | keep => exact h
  | others _ volume hfd =>
    rcases h with hctx | ⟨hro, hlookup⟩
    · exact .inl hctx
    · exact .inr ⟨hro, hfd.trans hlookup⟩
  | callback _ fileName ans cb =>
    by_cases hclose : cb = .closeFile
    · left
      rw [hclose, call, closeFile_info]
    · have hcontext := call_context s fileName ans hclose
      rcases h with hctx | ⟨hro, hlookup⟩
      · exact .inl (hcontext.trans hctx)
      · right
        rw [hcontext, call_fds hro fileName ans hclose]
        exact ⟨hro, hlookup⟩

theorem Guarded.trace {evs} {t} (htrace : Trace Step s evs t) (h : Guarded ino s) : Guarded ino t :=
  htrace.invariant (fun _ _ _ _ hstep hs => hs.step hstep) h

end Guarded

/-! ### Opening a file that is reported read-only -/

/-- The disposition is not one of those that open with `O_TRUNC`. -/
def Disposition.keeps : Disposition → Bool
  | .createAlways => false
  | .truncateExisting => false
  | _ => true

/-- `WinCephCreateFile` gets a descriptor for writing of a file that exists and that is reported
read-only. A `ceph_stat` that fails makes it take the file for a missing one. -/
def CreateRequest.OpensWritable (req : CreateRequest) (ans : Answers) : Prop :=
  toLinuxFilePath req.fileName ≠ ['/'] ∧ 0 ≤ ans.cephOpen ∧
    match req.disposition with
    | .createAlways =>
      ¬(ans.useACL = true ∧ ans.permission ≠ 0) ∧
        (ans.stat = 0 ∨ fileCreate (getAbsPath req.fileName) ans.ui2 = true)
    | .truncateExisting => ans.stat = 0 ∧ ¬(ans.useACL = true ∧ ans.permission ≠ 0)
    | .openAlways =>
      if ans.stat = 0 then
        req.wantsWrite = false ∧
          ¬(req.wantsRead = true ∧ ans.useACL = true ∧ ans.permission ≠ 0)
      else
        ¬(ans.useACL = true ∧ ans.permission ≠ 0) ∧
          fileCreate (getAbsPath req.fileName) ans.ui2 = true
    | .openExisting =>
      ans.stat = 0 ∧ req.wantsWrite = false ∧
        ¬(req.wantsRead = true ∧ ans.useACL = true ∧ ans.permission ≠ 0)
    | .createNew => False
    | .unknown => False

/-- The handle has a descriptor of the file `ino` that allows writing. -/
def Writable (ino : ℕ) (s : State) : Prop :=
  s.info.context.readOnly = false ∧ s.info.context.fd ≠ 0 ∧
    s.volume.fds.lookup s.info.context.fd = some ⟨ino, true⟩

theorem Writable.exists_change {ino : ℕ} {s : State} (h : Writable ino s) :
    ∃ evs t, Trace Step s evs t ∧ ∃ buf,
      (t.call [] {} (.writeFile buf 0)).2.volume.data ino ≠ t.volume.data ino := by
  obtain ⟨hro, hfd, hlookup⟩ := h
  -- others empty the file and leave room for one byte
  let volume : Volume := { s.volume with data := fun _ => [], maxFilesize := 1 }
  refine ⟨[.others volume], { s with volume := volume },
    .cons (.others s volume rfl) (.nil _), [1], ?_⟩
  have hlook : volume.fds.lookup s.info.context.fd = some ⟨ino, true⟩ := hlookup
  simp [call, writeFile, hro, hfd, Volume.cephWrite, hlook, volume, Volume.setData,
    FileBytes.writeAt, FileBytes.resize]

section

variable {v : Volume} {isDirectory : Bool} {req : CreateRequest} {ans : Answers} {ino : ℕ}

/-- What the open leaves: a handle for writing where `opens` holds, with the file emptied where
`keeps` does not, and else nothing that changes the file. -/
def Leaves (v : Volume) (ino : ℕ) (opens : Prop) (keeps : Bool) (s : State) : Prop :=
  (opens → Writable ino s ∧ s.volume.data ino = if keeps then v.data ino else []) ∧
    (¬opens → Guarded ino s ∧ s.volume.data ino = v.data ino)

theorem Leaves.of_same {opens : Prop} (keeps : Bool) (h : ¬opens) :
    Leaves v ino opens keeps ⟨v, { isDirectory := isDirectory }⟩ :=
  ⟨fun hopens => absurd hopens h, fun _ => ⟨.inl rfl, rfl⟩⟩

theorem Leaves.of_addFd {opens : Prop} {keeps : Bool} (volume : Volume) (deleteOnClose : Bool)
    (hdata : volume.data ino = if keeps then v.data ino else []) (h : opens) :
    Leaves v ino opens keeps (storeContext ⟨v, { isDirectory := isDirectory }⟩
      (volume.addFd ⟨ino, true⟩).2 { fd := volume.getFd, deleteOnClose := deleteOnClose }) :=
  ⟨fun _ => ⟨⟨rfl, volume.getFd_ne_zero, volume.lookup_addFd _⟩, hdata⟩,
    fun hnot => absurd h hnot⟩

section

variable (ret : ℤ) (hname : v.names (toLinuxFilePath req.fileName) = some ⟨ino, .reg⟩)

include hname

theorem truncateRegular_leaves :
    Leaves v ino (0 ≤ ans.cephOpen ∧ ¬(ans.useACL = true ∧ ans.permission ≠ 0)) false
      (truncateRegular ⟨v, { isDirectory := isDirectory }⟩ req ans ret).2 := by
  unfold truncateRegular Volume.cephOpen
  by_cases hacl : ans.useACL = true ∧ ans.permission ≠ 0
  · rw [if_pos hacl]
    exact .of_same _ (by simp [hacl])
  · rw [if_neg hacl]
    by_cases herr : ans.cephOpen < 0
    · simp only [herr, if_true]
      exact .of_same _ (by omega)
    · have hnonneg : ¬((v.setData ino []).addFd ⟨ino, true⟩).1 < 0 := by simp [Volume.addFd]
      simp only [herr, hname, if_false, Bool.false_eq_true, and_false, if_true, hnonneg]
      exact .of_addFd (v.setData ino []) _ (by simp [Volume.setData]) ⟨not_lt.mp herr, hacl⟩

theorem openRegular_leaves (hattr : has ans.attributes fileAttributeReadonly = true) :
    Leaves v ino (0 ≤ ans.cephOpen ∧ req.wantsWrite = false ∧
        ¬(req.wantsRead = true ∧ ans.useACL = true ∧ ans.permission ≠ 0)) true
      (openRegular ⟨v, { isDirectory := isDirectory }⟩ req ans ret).2 := by
  unfold openRegular Volume.cephOpen
  by_cases hacl : req.wantsRead = true ∧ ans.useACL = true ∧ ans.permission ≠ 0
  · rw [if_pos hacl]
    exact .of_same _ (by simp [hacl])
  · rw [if_neg hacl]
    have hnonneg : ∀ wr, ¬(v.addFd ⟨ino, wr⟩).1 < 0 := by simp [Volume.addFd]
    cases hwrite : req.wantsWrite with
    | false =>
      by_cases herr : ans.cephOpen < 0
      · simp only [herr, Bool.false_and, Bool.false_eq_true, false_and, if_false, if_true]
        exact .of_same _ (by omega)
      · simp only [herr, hname, Bool.false_and, Bool.false_eq_true, false_and, if_false,
          Bool.not_false, hnonneg]
        exact .of_addFd v _ (by simp) ⟨not_lt.mp herr, trivial, hacl⟩
    | true =>
      simp only [hattr, Bool.true_and, true_and, Bool.not_true, hname, Bool.false_eq_true,
        false_and, if_false]
      split_ifs with htxt herr hneg
      · exact .of_same _ (by simp)
      · exact .of_same _ (by simp)
      · exact .of_same _ (by simp)
      · refine ⟨by simp, fun _ => ⟨.inr ⟨rfl, v.lookup_addFd _⟩, rfl⟩⟩

theorem createMissing_leaves {flags : OpenFlags} {least : ℤ} (hwr : flags.wr = true)
    (hcreat : flags.creat = true) (hleast : 0 ≤ least ∧ least ≤ 1) :
    Leaves v ino (0 ≤ ans.cephOpen ∧ flags.excl = false ∧
        ¬(ans.useACL = true ∧ ans.permission ≠ 0) ∧
        fileCreate (getAbsPath req.fileName) ans.ui2 = true) (!flags.trunc)
      (createMissing ⟨v, { isDirectory := isDirectory }⟩ req ans flags least).2 := by
  unfold createMissing Volume.cephOpen
  by_cases hacl : ans.useACL = true ∧ ans.permission ≠ 0
  · rw [if_pos hacl]
    exact .of_same _ (by simp [hacl])
  rw [if_neg hacl]
  cases hcreate : fileCreate (getAbsPath req.fileName) ans.ui2 with
  | false => exact .of_same _ (by simp)
  | true =>
    have hnonneg : ∀ volume : Volume, ¬(volume.addFd ⟨ino, true⟩).1 < least := by
      intro volume
      have := Nat.pos_of_ne_zero volume.getFd_ne_zero
      simp only [Volume.addFd]
      omega
    by_cases herr : ans.cephOpen < 0
    · simp only [herr, if_true, herr.trans_le hleast.1]
      exact .of_same _ (by omega)
    cases flags.excl with
    | true =>
      simp only [herr, if_false, hname, hcreat, and_self, if_true,
        lt_of_lt_of_le (by decide : -eexist < 0) hleast.1]
      exact .of_same _ (by simp)
    | false =>
      cases flags.trunc with
      | true =>
        simp only [herr, if_false, hname, hwr, Bool.false_eq_true, and_false, if_true, hnonneg]
        exact .of_addFd (v.setData ino []) _ (by simp [Volume.setData])
          ⟨not_lt.mp herr, trivial, hacl, trivial⟩
      | false =>
        simp only [herr, if_false, hname, hwr, Bool.false_eq_true, and_false, hnonneg]
        exact .of_addFd v _ (by simp) ⟨not_lt.mp herr, trivial, hacl, trivial⟩

end

theorem Leaves.congr {opens opens' : Prop} {keeps : Bool} {s : State} (h : opens' ↔ opens)
    (hleaves : Leaves v ino opens keeps s) : Leaves v ino opens' keeps s :=
  ⟨fun hopens => hleaves.1 (h.mp hopens), fun hopens => hleaves.2 (hopens ∘ h.mpr)⟩

theorem createFile_leaves (hname : v.names (toLinuxFilePath req.fileName) = some ⟨ino, .reg⟩)
    (hattr : has ans.attributes fileAttributeReadonly = true) :
    Leaves v ino (req.OpensWritable ans) req.disposition.keeps
      (createFile ⟨v, { isDirectory := isDirectory }⟩ req ans).2 := by
  unfold createFile CreateRequest.OpensWritable
  by_cases hroot : toLinuxFilePath req.fileName = ['/']
  · rw [if_pos hroot]
    exact .of_same _ (fun h => h.1 hroot)
  simp only [hroot, if_false, Volume.cephStat, hname, ne_eq, not_false_eq_true, true_and]
  by_cases hstat : ans.stat = 0
  · simp only [hstat, if_true]
    cases req.disposition with
    | createNew => exact .of_same _ (by simp)
    | unknown => exact .of_same _ (by simp)
    | createAlways => exact (truncateRegular_leaves _ hname).congr (by simp)
    | truncateExisting => exact (truncateRegular_leaves _ hname).congr (by simp)
    | openAlways => exact (openRegular_leaves _ hname hattr).congr (by simp)
    | openExisting => exact (openRegular_leaves _ hname hattr).congr (by simp)
  · simp only [hstat, if_false]
    cases req.disposition with
    | createNew => exact (createMissing_leaves hname rfl rfl (by decide)).congr (by simp)
    | createAlways => exact (createMissing_leaves hname rfl rfl (by decide)).congr (by simp)
    | openAlways => exact (createMissing_leaves hname rfl rfl (by decide)).congr (by simp)
    | openExisting =>
      dsimp only
      split_ifs
      · exact .of_same _ (by simp)
      · exact .of_same _ (by simp)
    | truncateExisting => exact .of_same _ (by simp)
    | unknown => exact .of_same _ (by simp)

/-! ### The handles that are marked read-only -/

theorem truncateRegular_readOnly (ret : ℤ) :
    (truncateRegular ⟨v, { isDirectory := isDirectory }⟩ req ans ret).2.info.context.readOnly =
      false := by
  unfold truncateRegular
  dsimp only
  split_ifs <;> rfl

theorem createMissing_readOnly (flags : OpenFlags) (least : ℤ) :
    (createMissing ⟨v, { isDirectory := isDirectory }⟩ req ans flags
      least).2.info.context.readOnly = false := by
  unfold createMissing
  dsimp only
  split_ifs <;> rfl

theorem openRegular_readOnly {ret : ℤ}
    (h : (openRegular ⟨v, { isDirectory := isDirectory }⟩ req ans ret).2.info.context.readOnly =
      true) : has ans.attributes fileAttributeReadonly = true := by
  unfold openRegular at h
  dsimp only at h
  split_ifs at h
  exact (Bool.and_eq_true _ _ ▸ h : _ ∧ _).2

theorem createFile_readOnly
    (h : (createFile ⟨v, { isDirectory := isDirectory }⟩ req ans).2.info.context.readOnly = true) :
    (∃ ino, v.names (toLinuxFilePath req.fileName) = some ⟨ino, .reg⟩) ∧
      has ans.attributes fileAttributeReadonly = true := by
  unfold createFile at h
  by_cases hroot : toLinuxFilePath req.fileName = ['/']
  · simp [hroot] at h
  simp only [hroot, if_false] at h
  cases hnode : v.cephStat (toLinuxFilePath req.fileName) ans.stat with
  | none =>
    rw [hnode] at h
    cases hdisp : req.disposition <;> simp [hdisp, createMissing_readOnly] at h
    split_ifs at h
  | some node =>
    have hname : v.names (toLinuxFilePath req.fileName) = some node := by
      unfold Volume.cephStat at hnode
      split_ifs at hnode
      exact hnode
    obtain ⟨ino, kind⟩ := node
    rw [hnode] at h
    cases kind with
    | other => cases h
    | dir => cases hdisp : req.disposition <;> rw [hdisp] at h <;> cases h
    | reg =>
      refine ⟨⟨ino, hname⟩, ?_⟩
      cases hdisp : req.disposition <;> simp only [hdisp, truncateRegular_readOnly] at h
      case openAlways => exact openRegular_readOnly h
      case openExisting => exact openRegular_readOnly h
      all_goals cases h

/-- On a handle that was opened read-only no callback but SetEndOfFile and SetAllocationSize
changes the file. A file that is reported read-only keeps its contents, and gets no handle that
changes it in another way, exactly when it is not opened for writing. -/
theorem createFile_readOnly_keeps (v : Volume) (isDirectory : Bool) (req : CreateRequest)
    (ans : Answers) :
    let s₀ := (createFile ⟨v, { isDirectory := isDirectory }⟩ req ans).2
    (s₀.info.context.readOnly = true →
      ∃ ino, v.names (toLinuxFilePath req.fileName) = some ⟨ino, .reg⟩ ∧
        ∀ evs s, Trace Step s₀ evs s → ∀ fileName ans cb,
          (s.call fileName ans cb).2.volume.data ino = s.volume.data ino ↔
            ¬cb.Resizes s ino ans) ∧
    (∀ ino, v.names (toLinuxFilePath req.fileName) = some ⟨ino, .reg⟩ →
      has ans.attributes fileAttributeReadonly = true →
        (s₀.volume.data ino = v.data ino ↔
          (req.OpensWritable ans → req.disposition.keeps = true ∨ v.data ino = [])) ∧
        ((∀ evs s, Trace Step s₀ evs s → ∀ fileName ans cb,
            (s.call fileName ans cb).2.volume.data ino = s.volume.data ino ↔
              ¬cb.Resizes s ino ans) ↔
          ¬req.OpensWritable ans)) := by
  intro s₀
  constructor
  · intro hro
    obtain ⟨⟨ino, hname⟩, hattr⟩ := createFile_readOnly hro
    have hleaves : Leaves v ino _ _ s₀ := createFile_leaves hname hattr
    have hnot : ¬req.OpensWritable ans := by
      intro hopens
      obtain ⟨⟨hwritable, -⟩, -⟩ := hleaves.1 hopens
      simp [hro] at hwritable
    refine ⟨ino, hname, ?_⟩
    intro evs s htrace fileName ans cb
    exact ((hleaves.2 hnot).1.trace htrace).call_data_iff fileName ans cb
  · intro ino hname hattr
    have hleaves : Leaves v ino _ _ s₀ := createFile_leaves hname hattr
    by_cases hopens : req.OpensWritable ans
    · obtain ⟨hwritable, hdata⟩ := hleaves.1 hopens
      refine ⟨?_, ?_⟩
      · rw [hdata]
        cases req.disposition.keeps with
        | false => exact ⟨fun h _ => .inr h.symm, fun h => ((h hopens).resolve_left nofun).symm⟩
        | true => simp
      · refine iff_of_false ?_ (not_not.mpr hopens)
        intro hlaw
        obtain ⟨evs, t, htrace, buf, hchange⟩ := hwritable.exists_change
        exact hchange ((hlaw evs t htrace [] {} (.writeFile buf 0)).mpr id)
    · obtain ⟨hguarded, hdata⟩ := hleaves.2 hopens
      refine ⟨iff_of_true hdata fun h => absurd h hopens, iff_of_true ?_ hopens⟩
      intro evs s htrace fileName ans cb
      exact (hguarded.trace htrace).call_data_iff fileName ans cb

end

/-- A file of three bytes that is reported read-only. -/
def sampleVolume : Volume :=
  ⟨fun p => if p = "/doc".toList then some ⟨1, .reg⟩ else none,
    fun ino => if ino = 1 then [10, 20, 30] else [], [], 2, 1000⟩

def sampleOpen (disposition : Disposition) : State :=
  (createFile ⟨sampleVolume, {}⟩
    ⟨"\\doc".toList, genericRead ||| genericWrite, disposition, 0⟩
    { attributes := fileAttributeReadonly }).2

/-- A write to the sample file is refused and leaves its three bytes. -/
theorem createFile_readOnly_keeps_sample :
    (sampleOpen .openExisting).info.context.readOnly = true ∧
      ((sampleOpen .openExisting).call "\\doc".toList {} (.writeFile [1] 0)).2.volume.data 1 =
        (sampleOpen .openExisting).volume.data 1 := by
  have hkeeps := (createFile_readOnly_keeps sampleVolume false
    ⟨"\\doc".toList, genericRead ||| genericWrite, .openExisting, 0⟩
    { attributes := fileAttributeReadonly }).2 1 (by decide) (by decide)
  have hnot : ¬(⟨"\\doc".toList, genericRead ||| genericWrite, .openExisting, 0⟩ :
      CreateRequest).OpensWritable { attributes := fileAttributeReadonly } := by
    rintro ⟨-, -, -, hwrite, -⟩
    exact absurd hwrite (by decide)
  refine ⟨by decide, ?_⟩
  exact (hkeeps.2.mpr hnot [] _ (.nil _) "\\doc".toList {} (.writeFile [1] 0)).mpr id

/-- SetEndOfFile cuts the file off through the read-only handle, and CREATE_ALWAYS does when the
file is opened. -/
theorem setEndOfFile_readOnly_truncates :
    (sampleOpen .openExisting).info.context.readOnly = true ∧
      (sampleOpen .openExisting).volume.data 1 = [10, 20, 30] ∧
      ((sampleOpen .openExisting).call "\\doc".toList {} (.setEndOfFile 1)).2.volume.data 1 = [10] ∧
      (sampleOpen .createAlways).volume.data 1 = [] := by
  decide

end CephDokan.Dokan
