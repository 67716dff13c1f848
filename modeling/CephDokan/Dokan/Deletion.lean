import CephDokan.Dokan.Callbacks

/-!
# What Cleanup and CloseFile remove

A handle removes its file at Cleanup when a delete callback has been granted, and at CloseFile
when it was opened as temporary or with delete-on-close. Nobody asks the permission service in
the second case.
-/

namespace CephDokan.Dokan

def Event.GrantsDelete : Event → Prop
  | .callback fileName ans .deleteFile => deleteFile fileName ans = 0
  | .callback fileName ans .deleteDirectory => deleteDirectory fileName ans = 0
  | _ => False

def Removes (s t : State) : Prop := ∃ p, s.volume.names p ≠ none ∧ t.volume.names p = none

/-- Whatever follows, Cleanup and CloseFile remove nothing before a delete callback has been
granted. -/
def Permitted (s0 : State) : Prop :=
  ∀ (evs : List Event) (s : State) (fileName : Path) (ans : Answers) (cb : Callback),
    Trace Step s0 evs s → cb = .cleanup ∨ cb = .closeFile →
      Removes s (s.call fileName ans cb).2 → ∃ e ∈ evs, e.GrantsDelete

variable {s t s0 : State}

theorem not_removes_of_names (h : t.volume.names = s.volume.names) : ¬Removes s t := by
  rintro ⟨p, hs, ht⟩
  exact hs (h ▸ ht)

/-! ### The handle along a run -/

/-- What a handle keeps until a delete callback is granted: its context, until it is closed, and
the cleared flag of Dokan. -/
structure Ungranted (s0 s : State) : Prop where
  context : s.info.context = s0.info.context ∨ s.info.context = {}
  isDirectory : s.info.isDirectory = s0.info.isDirectory
  deleteOnClose : s.info.deleteOnClose = false

theorem Ungranted.of_info (h : Ungranted s0 s) (hinfo : t.info = s.info) : Ungranted s0 t := by
  obtain ⟨hcontext, hdir, hdel⟩ := h
  exact ⟨by rw [hinfo]; exact hcontext, by rw [hinfo]; exact hdir, by rw [hinfo]; exact hdel⟩

theorem writeFile_info (s : State) (fileName : Path) (buf : Bytes) (offset : ℤ) (ans : Answers) :
    (s.writeFile fileName buf offset ans).2.info = s.info := by
  unfold State.writeFile
  split_ifs <;> try rfl
  dsimp only
  split_ifs <;> rfl

theorem setAllocationSize_info (s : State) (allocSize : ℤ) (ans : Answers) :
    (s.setAllocationSize allocSize ans).2.info = s.info := by
  unfold State.setAllocationSize
  cases s.volume.fds.lookup s.info.context.fd with
  | none => split_ifs <;> rfl
  | some fh =>
    dsimp only
    split_ifs <;> rfl

theorem moveFile_info (s : State) (fileName newFileName : Path) (replaceIfExisting moves : Bool)
    (ans : Answers) :
    (s.moveFile fileName newFileName replaceIfExisting moves ans).2.info = s.info := by
  unfold State.moveFile
  dsimp only
  split_ifs <;> rfl

theorem setEndOfFile_info (s : State) (byteOffset : ℤ) (ans : Answers) :
    (s.setEndOfFile byteOffset ans).2.info = s.info := by
  unfold State.setEndOfFile
  split_ifs <;> rfl

theorem cleanup_info (s : State) (fileName : Path) (ans : Answers) :
    (s.cleanup fileName ans).2.info = s.info := by
  unfold State.cleanup
  split_ifs <;> rfl

theorem closeFile_info (s : State) (fileName : Path) (ans : Answers) :
    (s.closeFile fileName ans).2.info = { s.info with context := {} } := by
  unfold State.closeFile
  dsimp only
  split_ifs with hctx
  · rw [← hctx]
  · rfl
  · rfl

theorem Ungranted.step {e} (hstep : Step e s t) (he : ¬e.GrantsDelete)
    (h : Ungranted s0 s) : Ungranted s0 t := by
  cases hstep with
  | keep => exact ⟨h.context, h.isDirectory, rfl⟩
  | others _ volume hfd => exact ⟨h.context, h.isDirectory, h.deleteOnClose⟩
  | callback _ fileName ans cb =>
    cases cb with
    | writeFile buf offset => exact h.of_info (writeFile_info s fileName buf offset ans)
    | setEndOfFile byteOffset => exact h.of_info (setEndOfFile_info s byteOffset ans)
    | setAllocationSize allocSize => exact h.of_info (setAllocationSize_info s allocSize ans)
    | deleteFile =>
      have hret : deleteFile fileName ans ≠ 0 := he
      exact ⟨h.context, h.isDirectory, by simp [State.call, hret, h.deleteOnClose]⟩
    | deleteDirectory =>
      have hret : deleteDirectory fileName ans ≠ 0 := he
      exact ⟨h.context, h.isDirectory, by simp [State.call, hret, h.deleteOnClose]⟩
    | moveFile newFileName replaceIfExisting moves =>
      exact h.of_info (moveFile_info s fileName newFileName replaceIfExisting moves ans)
    | cleanup => exact h.of_info (cleanup_info s fileName ans)
    | closeFile =>
      have hinfo := closeFile_info s fileName ans
      exact ⟨.inr (by rw [State.call, hinfo]), by rw [State.call, hinfo]; exact h.isDirectory,
        by rw [State.call, hinfo]; exact h.deleteOnClose⟩

/-! ### Removals -/

theorem not_removes_cleanup (fileName : Path) (ans : Answers)
    (h : s.info.deleteOnClose = false) : ¬Removes s (s.cleanup fileName ans).2 := by
  apply not_removes_of_names
  unfold State.cleanup
  split_ifs with hctx hdel hdir <;> first | rfl | simp [h] at hdel

theorem not_removes_closeFile (fileName : Path) (ans : Answers)
    (h : s.info.context = {} ∨ s.info.context.deleteOnClose = false ∨ s.info.isDirectory = true) :
    ¬Removes s (s.closeFile fileName ans).2 := by
  apply not_removes_of_names
  unfold State.closeFile
  dsimp only
  split_ifs with hctx hdel
  · rfl
  · rcases h with h | h | h
    · exact absurd h hctx
    · simp [h] at hdel
    · simp [h] at hdel
  · rfl

theorem removes_closeFile (hctx : s.info.context ≠ {})
    (hdel : s.info.context.deleteOnClose = true) (hdir : s.info.isDirectory = false)
    {fileName} {ino} (hname : s.volume.names (toLinuxFilePath fileName) = some ⟨ino, .reg⟩) :
    Removes s (s.closeFile fileName {}).2 := by
  refine ⟨toLinuxFilePath fileName, by simp [hname], ?_⟩
  simp [State.closeFile, hctx, hdel, hdir, Volume.cephClose, Volume.cephUnlink, hname]

theorem permitted_iff (hnew : s0.info.deleteOnClose = false) :
    Permitted s0 ↔ s0.info.context = {} ∨ s0.info.context.deleteOnClose = false ∨
      s0.info.isDirectory = true := by
  constructor
  · intro h
    by_contra hnot
    simp only [not_or, Bool.not_eq_false, Bool.not_eq_true] at hnot
    obtain ⟨hctx, hdel, hdir⟩ := hnot
    -- others put a file where the handle is closed
    let volume : Volume := { s0.volume with names := fun _ => some ⟨0, .reg⟩ }
    let s : State := { s0 with volume := volume }
    have htrace : Trace Step s0 [.others volume] s := Trace.single (.others s0 volume rfl)
    have hremoves : Removes s (s.closeFile [] {}).2 := removes_closeFile (s := s) hctx hdel hdir rfl
    obtain ⟨e, he, hgrants⟩ := h _ s [] {} .closeFile htrace (.inr rfl) hremoves
    rw [List.mem_singleton.mp he] at hgrants
    exact hgrants
  · intro h evs s fileName ans cb htrace hcb hremoves
    by_contra hnone
    have hkept : Ungranted s0 s := by
      apply htrace.invariant (P := Ungranted s0)
      · intro e he s t hstep hs
        exact hs.step hstep fun hgrants => hnone ⟨e, he, hgrants⟩
      · exact ⟨.inl rfl, rfl, hnew⟩
    rcases hcb with rfl | rfl
    · exact not_removes_cleanup fileName ans hkept.deleteOnClose hremoves
    · refine not_removes_closeFile fileName ans ?_ hremoves
      rcases hkept.context with hctx | hctx
      · rw [hctx, hkept.isDirectory]
        exact h
      · exact .inl hctx

/-! ### The handle of an open -/

/-- An open leaves the handle alone or gives it a context with the flag `deleteOnClose`. -/
def Stores (deleteOnClose : Bool) (s t : State) : Prop :=
  t.info = s.info ∨
    ∃ fdc : FdContext, fdc.deleteOnClose = deleteOnClose ∧ t.info = { s.info with context := fdc }

theorem Stores.refl (deleteOnClose : Bool) (s : State) : Stores deleteOnClose s s := .inl rfl

theorem Stores.context (s : State) (volume : Volume) (fdc : FdContext) :
    Stores fdc.deleteOnClose s (s.storeContext volume fdc) := .inr ⟨fdc, rfl, rfl⟩

section

variable (s : State) (req : CreateRequest) (ans : Answers)

theorem truncateRegular_stores (ret : ℤ) :
    Stores req.deleteOnClose s (s.truncateRegular req ans ret).2 := by
  unfold State.truncateRegular
  dsimp only
  split_ifs
  · exact .refl _ s
  · exact .refl _ s
  · exact .context s _ _

theorem openRegular_stores (ret : ℤ) :
    Stores req.deleteOnClose s (s.openRegular req ans ret).2 := by
  unfold State.openRegular
  dsimp only
  split_ifs
  · exact .refl _ s
  · exact .refl _ s
  · exact .refl _ s
  · exact .context s _ _

theorem createMissing_stores (flags : OpenFlags) (least : ℤ) :
    Stores req.deleteOnClose s (s.createMissing req ans flags least).2 := by
  unfold State.createMissing
  dsimp only
  split_ifs
  · exact .refl _ s
  · exact .refl _ s
  · exact .refl _ s
  · exact .context s _ _

theorem createFile_stores : Stores req.deleteOnClose s (s.createFile req ans).2 := by
  unfold State.createFile
  by_cases hroot : toLinuxFilePath req.fileName = ['/']
  · simp only [hroot, if_true]
    exact .refl _ s
  simp only [hroot, if_false]
  split
  · cases req.disposition
    case truncateExisting => exact truncateRegular_stores s req ans 0
    case createAlways => exact truncateRegular_stores s req ans errorAlreadyExists
    case openAlways => exact openRegular_stores s req ans errorAlreadyExists
    case openExisting => exact openRegular_stores s req ans 0
    all_goals exact .refl _ s
  · cases req.disposition <;> exact .refl _ s
  · exact .refl _ s
  · cases req.disposition
    case createNew => exact createMissing_stores s req ans _ _
    case createAlways => exact createMissing_stores s req ans _ _
    case openAlways => exact createMissing_stores s req ans _ _
    case openExisting =>
      split_ifs <;> exact .refl _ s
    all_goals exact .refl _ s

end

def Opening.deleteOnClose : Opening → Bool
  | .createFile req => req.deleteOnClose
  | _ => false

theorem Opening.open_stores (o : Opening) (s : State) (ans : Answers) :
    Stores o.deleteOnClose s (o.open s ans).2 := by
  cases o with
  | createFile req => exact createFile_stores s req ans
  | createDirectory fileName =>
    left
    rw [Opening.open]
    unfold State.createDirectory
    dsimp only
    repeat' split
    all_goals rfl
  | openDirectory fileName =>
    rw [Opening.open]
    unfold State.openDirectory
    dsimp only
    split
    · exact .refl _ s
    split_ifs
    · exact .refl _ s
    · exact .refl _ s
    · exact .refl _ s
    · exact .context s _ _

/-- Cleanup and CloseFile need permission to remove a file, for every handle but those whose
open asked for a temporary file or for delete-on-close. -/
theorem Opening.open_permitted_iff (o : Opening) (v : Volume) (isDirectory : Bool) (ans : Answers) :
    Permitted (o.open ⟨v, { isDirectory := isDirectory }⟩ ans).2 ↔
      ¬((o.open ⟨v, { isDirectory := isDirectory }⟩ ans).2.info.context ≠ {} ∧
        o.deleteOnClose = true ∧ isDirectory = false) := by
  obtain hinfo | ⟨fdc, hfdc, hinfo⟩ :=
    o.open_stores ⟨v, { isDirectory := isDirectory }⟩ ans
  · rw [permitted_iff (by rw [hinfo]), hinfo]
    simp
  · rw [permitted_iff (by rw [hinfo]), hinfo]
    simp only [hfdc]
    cases o.deleteOnClose <;> cases isDirectory <;> simp

/-- A temporary file goes when it is closed, without a question to the service, which forbids
its deletion. -/
theorem closeFile_temporary_removes :
    ∃ (req : CreateRequest) (v : Volume),
      let s := (State.createFile ⟨v, {}⟩ req {}).2
      Trace Step s [] s ∧ Removes s (s.call req.fileName {} .closeFile).2 ∧
        deleteFile req.fileName { ui2 := .forbid } ≠ 0 := by
  refine ⟨⟨"\\doc".toList, genericWrite, .createNew, fileAttributeTemporary⟩,
    ⟨fun _ => none, fun _ => [], [], 0, 1000⟩, .nil _, ?_, by decide⟩
  exact ⟨"/doc".toList, by decide, by decide⟩

end CephDokan.Dokan
