import CephDokan.Client.Write

/-!
# What the result of a write says

The results of the writes to the objects do not reach the caller of `_write` on the synchronous
path, and a failed uninlining is noticed when size and mtime have been changed already. Where
neither happens, and `write_trunc` does not fail at once, the result is right and every
reference is released once.
-/

namespace CephDokan.Client

open Fallible WriteResult Except

/-! ### References -/

/-- The references on top of `r` that are left for the callback. -/
def Commit.taken (r : Refs) : Commit → Refs
  | .none => r
  | .syncCommit =>
    { r with inode := r.inode + 1, unsafeSyncWrite := r.unsafeSyncWrite + 1 }.getCapRef .buffer
  | .flushed => (r.getCapRef .buffer).getCapRef .cache

namespace Refs

variable (r : Refs)

theorem putCapRef_getCapRef (c : Cap) : (r.getCapRef c).putCapRef c = .ok r := by
  have hcaps : Function.update (Function.update r.caps c (r.caps c + 1)) c (r.caps c + 1 - 1) =
      r.caps := by simp
  unfold putCapRef getCapRef
  simp only [Function.update_self]
  rw [assertThat_of (by omega), ok_bind, hcaps]
  by_cases hfirst : c ≠ .wr ∧ r.caps c = 0
  · rw [if_pos hfirst, if_pos ⟨hfirst.1, by omega⟩, putInode, assertThat_of (by simp)]
    rfl
  · rw [if_neg hfirst, if_neg (fun h => hfirst ⟨h.1, by omega⟩)]
    rfl

theorem putCapRef_wr_getCapRef {c} (hc : c ≠ .wr) {s}
    (h : r.putCapRef .wr = .ok s) : (r.getCapRef c).putCapRef .wr = .ok (s.getCapRef c) := by
  unfold putCapRef at h ⊢
  obtain ⟨_, hpos, h⟩ := bind_eq_ok.mp h
  rw [assertThat_eq_ok] at hpos
  cases h
  have hwr : (r.getCapRef c).caps .wr = r.caps .wr := by
    simp [getCapRef, Function.update_of_ne (Ne.symm hc)]
  rw [hwr, assertThat_of hpos, ok_bind]
  simp only [getCapRef, Function.update_of_ne hc, Function.update_comm hc]
  rfl

theorem putCapRef_wr_mono {s} (i u : ℕ) (h : r.putCapRef .wr = .ok s) :
    Refs.putCapRef { r with inode := r.inode + i, unsafeSyncWrite := r.unsafeSyncWrite + u } .wr =
      .ok { s with inode := s.inode + i, unsafeSyncWrite := s.unsafeSyncWrite + u } := by
  unfold putCapRef at h ⊢
  obtain ⟨_, hpos, h⟩ := bind_eq_ok.mp h
  cases h
  rw [hpos, ok_bind]
  rfl

end Refs

theorem Commit.putCapRef_wr_taken (c : Commit) (r : Refs) :
    (c.taken (r.getCapRef .wr)).putCapRef .wr = .ok (c.taken r) := by
  have hput := r.putCapRef_getCapRef .wr
  have hbuffer : Cap.buffer ≠ .wr := by decide
  have hcache : Cap.cache ≠ .wr := by decide
  cases c with
  | none => exact hput
  | flushed =>
    exact Refs.putCapRef_wr_getCapRef _ hcache (Refs.putCapRef_wr_getCapRef _ hbuffer hput)
  | syncCommit => exact Refs.putCapRef_wr_getCapRef _ hbuffer (Refs.putCapRef_wr_mono _ 1 1 hput)

theorem Commit.release_taken (c : Commit) (r : Refs) : c.release (c.taken r) = .ok r := by
  cases c with
  | none => rfl
  | flushed =>
    simp only [release, taken, Refs.putCapRef_getCapRef, ok_bind]
  | syncCommit =>
    have hput : ((({ r with inode := r.inode + 1 } : Refs).getCapRef .buffer).putCapRef .buffer) =
        .ok { r with inode := r.inode + 1 } := Refs.putCapRef_getCapRef _ _
    have hone : 0 < (taken r .syncCommit).unsafeSyncWrite := Nat.succ_pos _
    rw [release, assertThat_of hone, ok_bind]
    exact (congrArg (· >>= Refs.putInode) hput).trans rfl

/-! ### The parts of a call -/

/-- The result `r` of a write of `size` bytes says what happened: all the writes to objects
succeeded, or size and mtime are the `same` as before. The references are as before, but for
those of an outstanding callback, and when that has run they are as before. -/
structure Writing.Sound (w : Writing) (same : ℕ → ℕ → Prop) (refs : Refs) (size : ℕ) (r : ℤ) :
    Prop where
  accepted : r = size → ∀ x ∈ w.osd, 0 ≤ x
  failed : r ≠ size → r < 0 ∧ same w.file.inode.size w.file.inode.mtime
  held : w.refs = w.commit.taken refs
  released : w.commit.release w.refs = .ok refs

theorem Writing.Sound.of_taken {w : Writing} {same : ℕ → ℕ → Prop} {refs : Refs}
    {size : ℕ} {r : ℤ}
    (accepted : r = size → ∀ x ∈ w.osd, 0 ≤ x)
    (failed : r ≠ size → r < 0 ∧ same w.file.inode.size w.file.inode.mtime)
    (hrefs : w.refs = w.commit.taken refs) : w.Sound same refs size r :=
  ⟨accepted, failed, hrefs, hrefs ▸ w.commit.release_taken refs⟩

theorem uninlineData_inode (file : FileState) (err : ℤ) :
    (uninlineData file err).2.inode = file.inode := by
  unfold uninlineData
  dsimp only
  split_ifs <;> rfl

section

variable {env : WriteEnv} {w w' : Writing} {buf : Bytes} {r : ℤ}

theorem bufferedWrite_eq (hcommit : w.commit = .none)
    (h : bufferedWrite env w buf = .ok (r, w')) :
    r = min env.fileWrite 0 ∧ w'.file.inode = w.file.inode ∧ w'.osd = w.osd ∧
      w'.refs = w'.commit.taken w.refs := by
  obtain ⟨_, _, h⟩ := bind_eq_ok.mp h
  simp only [Refs.putCapRef_getCapRef, ok_bind] at h
  cases h
  refine ⟨rfl, rfl, rfl, ?_⟩
  cases env.dirtyOrTx <;> simp [hcommit, Commit.taken]

/-- A synchronous write takes references for its callback, which is lost if `write_trunc` fails
at once. -/
theorem syncWrite_eq (h : syncWrite env w buf = .ok (r, w')) :
    w'.file.inode = w.file.inode ∧ w'.refs = Commit.taken w.refs .syncCommit ∧
      (env.writeTrunc < 0 ∧ r = env.writeTrunc ∧ w'.commit = w.commit ∨
        0 ≤ env.writeTrunc ∧ r = 0 ∧ w'.commit = .syncCommit ∧ w'.osd = w.osd ++ env.osd) := by
  obtain ⟨_, _, h⟩ := bind_eq_ok.mp h
  by_cases htrunc : env.writeTrunc < 0
  · rw [if_pos htrunc] at h
    cases h
    exact ⟨rfl, rfl, .inl ⟨htrunc, rfl, rfl⟩⟩
  · rw [if_neg htrunc] at h
    cases h
    exact ⟨rfl, rfl, .inr ⟨not_lt.mp htrunc, rfl, rfl, rfl⟩⟩

end

theorem writeDone_eq {r r'} {w w'} {un} (h : writeDone r w un = .ok (r', w')) :
    w'.commit = w.commit ∧ w'.osd = w.osd ∧ w.refs.putCapRef .wr = .ok w'.refs ∧
      w'.file.inode.size = w.file.inode.size ∧ w'.file.inode.mtime = w.file.inode.mtime ∧
      ((∀ u ∈ un, uninlined u = true) ∧ r' = r ∨ ∃ u ∈ un, u < 0 ∧ r' = u) := by
  unfold writeDone at h
  cases un with
  | none =>
    obtain ⟨refs, hrefs, h⟩ := bind_eq_ok.mp h
    cases h
    exact ⟨rfl, rfl, hrefs, rfl, rfl, .inl ⟨by simp, rfl⟩⟩
  | some u =>
    by_cases hu : uninlined u = true
    · simp only [hu, if_true] at h
      obtain ⟨refs, hrefs, h⟩ := bind_eq_ok.mp h
      cases h
      exact ⟨rfl, rfl, hrefs, rfl, rfl, .inl ⟨by simpa using hu, rfl⟩⟩
    · have hneg : u < 0 := by
        simp only [uninlined, decide_eq_true_eq, not_or, not_le] at hu
        exact hu.1
      simp only [hu] at h
      obtain ⟨refs, hrefs, h⟩ := bind_eq_ok.mp h
      cases h
      exact ⟨rfl, rfl, hrefs, rfl, rfl, .inr ⟨_, rfl, hneg, rfl⟩⟩

section Done

variable {same : ℕ → ℕ → Prop} {refs : Refs} {size : ℕ} {r r' : ℤ} {w w' : Writing}
  {un : Option ℤ}

theorem writeDone_refs (hrefs : w.refs = w.commit.taken (refs.getCapRef .wr))
    (h : writeDone r w un = .ok (r', w')) : w'.refs = w'.commit.taken refs := by
  obtain ⟨hcommit, -, hput, -⟩ := writeDone_eq h
  rw [hrefs, Commit.putCapRef_wr_taken] at hput
  rw [hcommit]
  exact (ok.inj hput).symm

theorem writeDone_sound_of_neg (h : writeDone r w un = .ok (r', w')) (size : ℕ) (hr : r < 0)
    (hrefs : w.refs = w.commit.taken (refs.getCapRef .wr))
    (hsame : same w.file.inode.size w.file.inode.mtime) : w'.Sound same refs size r' := by
  obtain ⟨-, -, -, hsize, hmtime, hres⟩ := writeDone_eq h
  have hneg : r' < 0 := by
    rcases hres with ⟨-, rfl⟩ | ⟨u, -, hu, rfl⟩
    · exact hr
    · exact hu
  rw [← hsize, ← hmtime] at hsame
  exact .of_taken (fun heq => by omega) (fun _ => ⟨hneg, hsame⟩) (writeDone_refs hrefs h)

/-- A call that has changed the inode: its result is right if the size fits the result and all
the writes to objects succeeded, and only then if the new mtime can be told from the old one. -/
theorem writeDone_sound (same : ℕ → ℕ → Prop) (h : writeDone (toInt size) w un = .ok (r', w'))
    (hrefs : w.refs = w.commit.taken (refs.getCapRef .wr)) (hun : ∀ u ∈ un, u ∈ w.osd) :
    (size < 2 ^ 31 ∧ (∀ x ∈ w.osd, 0 ≤ x) → w'.Sound same refs size r') ∧
      ((∀ n, ¬same n w.file.inode.mtime) → w'.Sound same refs size r' →
        size < 2 ^ 31 ∧ ∀ x ∈ w.osd, 0 ≤ x) := by
  obtain ⟨-, hosd, -, -, hmtime, hres⟩ := writeDone_eq h
  constructor
  · rintro ⟨hfits, hall⟩
    have hr : r' = size := by
      rcases hres with ⟨-, hr⟩ | ⟨u, hu, hneg, -⟩
      · rw [hr, toInt_of_lt hfits]
      · have := hall u (hun u hu)
        omega
    exact .of_taken (fun _ => by rw [hosd]; exact hall) (fun hne => absurd hr hne)
      (writeDone_refs hrefs h)
  · intro hclock hsound
    have hr : r' = size := by
      by_contra hne
      have hsame := (hsound.failed hne).2
      rw [hmtime] at hsame
      exact hclock _ hsame
    have hall := hsound.accepted hr
    rw [hosd] at hall
    refine ⟨?_, hall⟩
    rcases hres with ⟨-, hr'⟩ | ⟨u, hu, hneg, hr'⟩
    · rw [hr] at hr'
      have := toInt_lt size
      omega
    · omega

end Done

/-- A write of `size` bytes to the objects reports what happened: a write to the cacher if the
uninlining succeeds too, or if it fails itself; a synchronous one if no write to an object
fails. -/
def WriteEnv.Accepts (env : WriteEnv) (file : FileState) (size : ℕ) (buffer : Bool) : Prop :=
  let done := size < 2 ^ 31 ∧ ∀ u ∈ (startUninline env.uninline file).1, 0 ≤ u
  if env.clientOc && buffer then 0 ≤ env.fileWrite → done
  else 0 ≤ env.writeTrunc ∧ done ∧ ∀ x ∈ env.osd, 0 ≤ x

theorem startUninline_inode (err : ℤ) (file : FileState) :
    (startUninline err file).2.inode = file.inode := by
  unfold startUninline
  split_ifs
  · exact uninlineData_inode file err
  · rfl

section Data

variable {env : WriteEnv} {file : FileState} {refs : Refs} {offset endoff : ℕ} {buf : Bytes}
  {buffer : Bool} {r : ℤ} {w : Writing} (same : ℕ → ℕ → Prop)

theorem writeInline_sound
    (h : writeInline env file (refs.getCapRef .wr) offset endoff buf = .ok (r, w)) :
    (buf.length < 2 ^ 31 → w.Sound same refs buf.length r) ∧
      ((∀ n, ¬same n env.now) → w.Sound same refs buf.length r → buf.length < 2 ^ 31) := by
  unfold writeInline at h
  rw [Refs.putCapRef_getCapRef, ok_bind] at h
  simpa [writeSuccess] using writeDone_sound same h rfl (by simp)

theorem writeObjects_sound (hsame : same file.inode.size file.inode.mtime)
    (h : writeObjects env file (refs.getCapRef .wr) offset buf buffer = .ok (r, w)) :
    (env.Accepts file buf.length buffer → w.Sound same refs buf.length r) ∧
      ((∀ n, ¬same n env.now) → w.Sound same refs buf.length r →
        env.Accepts file buf.length buffer) := by
  have hinode := startUninline_inode env.uninline file
  obtain ⟨un, file', hun⟩ : ∃ un file', startUninline env.uninline file = (un, file') := ⟨_, _, rfl⟩
  simp only [writeObjects, hun] at h
  simp only [WriteEnv.Accepts, hun] at hinode ⊢
  cases hpath : env.clientOc && buffer with
  | true =>
    rw [if_pos hpath] at h
    obtain ⟨⟨r1, w1⟩, hwrite, h⟩ := bind_eq_ok.mp h
    obtain ⟨rfl, hfile, hosd, hrefs⟩ := bufferedWrite_eq rfl hwrite
    by_cases hneg : min env.fileWrite 0 < 0
    · simp only [hneg, if_true] at h
      have hsound : w.Sound same refs buf.length r :=
        writeDone_sound_of_neg h buf.length hneg hrefs (by rw [hfile, hinode]; exact hsame)
      exact ⟨fun _ => hsound, fun _ _ hnonneg => by omega⟩
    · simp only [hneg, if_false] at h
      have hdone := writeDone_sound same h hrefs (by simp [hosd])
      have hnonneg : 0 ≤ env.fileWrite := by omega
      simpa [hosd, hnonneg, writeSuccess] using hdone
  | false =>
    rw [if_neg (by simp [hpath])] at h
    obtain ⟨⟨r1, w1⟩, hwrite, h⟩ := bind_eq_ok.mp h
    obtain ⟨hfile, hrefs, ⟨hneg, rfl, hcommit⟩ | ⟨hnonneg, rfl, hcommit, hosd⟩⟩ :=
      syncWrite_eq hwrite
    · -- the references of the callback that does not come
      simp only [hneg, if_true] at h
      obtain ⟨hcommit', -, hput, -⟩ := writeDone_eq h
      rw [hrefs, Commit.putCapRef_wr_taken] at hput
      have hnot : ¬w.Sound same refs buf.length r := by
        intro hsound
        have hrefs := hsound.held
        rw [hcommit', hcommit, ← ok.inj hput] at hrefs
        exact absurd (congrArg Refs.unsafeSyncWrite hrefs) (Nat.succ_ne_self _)
      exact ⟨fun haccepts => absurd haccepts.1 (not_le.mpr hneg),
        fun _ hsound => absurd hsound hnot⟩
    · rw [← hcommit] at hrefs
      have hdone := writeDone_sound same h hrefs (by simp +contextual [hosd])
      rw [hosd, List.forall_mem_append] at hdone
      simpa [hnonneg, writeSuccess, and_assoc] using hdone

end Data

/-! ### The call -/

/-- Size and mtime are those of `file`, but for a size that a seek to the end has learned from
the MDS. -/
def Refreshed (env : WriteEnv) (f : Fh) (offset : ℤ) (file : FileState) (size mtime : ℕ) : Prop :=
  mtime = file.inode.mtime ∧
    (size = file.inode.size ∨ offset < 0 ∧ f.append = true ∧ env.seek = .ok size)

theorem position_refreshed {env} {file} {f : Fh} {offset} {size} {p}
    (h : position env file f offset size = .ok p) :
    Refreshed env f offset file p.1.inode.size p.1.inode.mtime := by
  obtain ⟨f1, hlock, h⟩ := bind_eq_ok.mp h
  split_ifs at h with hoff
  · obtain rfl := ok.inj h
    exact ⟨rfl, .inl rfl⟩
  · rw [← ok.inj h]
    have happ := (Fh.lockPos_eq hlock).2
    change Refreshed env f offset file (seekEnd env file f1).1.inode.size _
    unfold seekEnd Refreshed
    rw [happ]
    cases f.append <;> cases env.seek <;> simp [not_le.mp hoff]

theorem fetchInline_inode {fetch} {file file'} (h : fetchInline fetch file = .ok (.ok file')) :
    file'.inode.size = file.inode.size ∧ file'.inode.mtime = file.inode.mtime := by
  unfold fetchInline at h
  split_ifs at h
  · cases fetch with
    | error e => cases h
    | ok res =>
      obtain ⟨_, _, h⟩ := bind_eq_ok.mp h
      cases ok.inj h
      exact ⟨rfl, rfl⟩
  · cases ok.inj h
    exact ⟨rfl, rfl⟩

/-- The result of `_write`, compared with what happened. -/
def WriteResult.Sound (res : WriteResult) (env : WriteEnv) (file : FileState) (f : Fh)
    (refs : Refs) (offset : ℤ) (size : ℕ) : Prop :=
  Writing.Sound ⟨res.file, res.refs, res.commit, res.osd⟩ (Refreshed env f offset file) refs size
    res.ret

section Call

variable {env : WriteEnv} {file : FileState} {f : Fh} {refs : Refs} {offset : ℤ} {size : ℕ}

theorem sound_of_neg {res : WriteResult} (hneg : res.ret < 0)
    (hsame : Refreshed env f offset file res.file.inode.size res.file.inode.mtime)
    (hrefs : res.refs = refs) (hcommit : res.commit = .none) :
    res.Sound env file f refs offset size := by
  refine .of_taken (fun heq => by omega) (fun _ => ⟨hneg, hsame⟩) ?_
  simp only [hrefs, hcommit, Commit.taken]

/-- What the first part of a call leaves: an error without any effect but a refreshed size, or a
call that is ready, of which the same holds. -/
theorem prepareWrite_sound {x : WriteResult ⊕ Ready}
    (h : prepareWrite env file f refs offset size = .ok x) :
    x.elim (fun res => res.Sound env file f refs offset size)
      (fun s => Refreshed env f offset file s.file.inode.size s.file.inode.mtime) := by
  have hfile : Refreshed env f offset file file.inode.size file.inode.mtime := ⟨rfl, .inl rfl⟩
  unfold prepareWrite at h
  dsimp only at h
  generalize (if file.inode.size < endOffset offset size then
    some (endOffset offset size - file.inode.size) else none) = quota at h
  split_ifs at h
  · cases h
    exact sound_of_neg (by show -efbig < 0; decide) hfile rfl rfl
  · cases h
    exact sound_of_neg (by show -enospc < 0; decide) hfile rfl rfl
  · cases h
    exact sound_of_neg (by show -ebadf < 0; decide) hfile rfl rfl
  · cases h
    exact sound_of_neg (by show -edquot < 0; decide) hfile rfl rfl
  · obtain ⟨p, hposition, h⟩ := bind_eq_ok.mp h
    have hpos := position_refreshed hposition
    obtain ⟨fetched, hfetch, h⟩ := bind_eq_ok.mp h
    cases fetched with
    | error e =>
      cases h
      exact sound_of_neg e.2 hpos rfl rfl
    | ok file1 =>
      obtain ⟨hsize, hmtime⟩ := fetchInline_inode hfetch
      have hpos1 : Refreshed env f offset file file1.inode.size file1.inode.mtime := by
        rw [hsize, hmtime]
        exact hpos
      cases hcaps : env.caps (endOffset offset size) with
      | error e =>
        simp only [hcaps] at h
        cases h
        exact sound_of_neg e.2 hpos1 rfl rfl
      | ok buffer =>
        simp only [hcaps] at h
        cases h
        exact hpos1

/-- A call of `_write` reports what happened: where it gets to the data, its size fits the
result, and if it writes to the objects, none of the writes that it does not look at, or looks at
too late, fails. -/
def WriteEnv.Reports (env : WriteEnv) (file : FileState) (f : Fh) (refs : Refs) (offset : ℤ)
    (size : ℕ) : Prop :=
  ∀ s, prepareWrite env file f refs offset size = .ok (.inr s) →
    if staysInline env s.file (endOffset offset size) s.buffer then size < 2 ^ 31
    else env.Accepts s.file size s.buffer

/-- A call of `_write` that returns has told the truth and released its references, or left them
to its callback, if and only if no write to the objects fails unseen. (Without a change of the
clock nobody can tell that the mtime was set.) -/
theorem write_sound_iff {buf : Bytes} {res : WriteResult}
    (h : write env file f refs offset buf = .ok res) :
    (env.Reports file f refs offset buf.length → res.Sound env file f refs offset buf.length) ∧
      (env.now ≠ file.inode.mtime → res.Sound env file f refs offset buf.length →
        env.Reports file f refs offset buf.length) := by
  obtain ⟨x, hprepare, h⟩ := bind_eq_ok.mp h
  have hx := prepareWrite_sound hprepare
  unfold WriteEnv.Reports
  cases x with
  | inl res' =>
    cases h
    refine ⟨fun _ => hx, fun _ _ s hs => ?_⟩
    cases hprepare.symm.trans hs
  | inr s =>
    obtain ⟨⟨r, w⟩, hdata, h⟩ := bind_eq_ok.mp h
    cases h
    have hclock : env.now ≠ file.inode.mtime →
        ∀ n, ¬Refreshed env f offset file n env.now := fun hne n hn => hne hn.1
    rw [hprepare]
    simp only [ok.injEq, Sum.inr.injEq, forall_eq']
    unfold writeData at hdata
    by_cases hinline : staysInline env s.file (endOffset offset buf.length) s.buffer = true
    · rw [if_pos hinline] at hdata ⊢
      obtain ⟨hsound, hfits⟩ := writeInline_sound (Refreshed env f offset file) hdata
      exact ⟨hsound, fun hne => hfits (hclock hne)⟩
    · rw [if_neg hinline] at hdata ⊢
      obtain ⟨hsound, haccepts⟩ := writeObjects_sound (Refreshed env f offset file) hx hdata
      exact ⟨hsound, fun hne => haccepts (hclock hne)⟩

end Call

/-- A call that may not buffer, with the results of `write_trunc` and of the object writes. -/
def unbufferedEnv (writeTrunc : ℤ) (osd : List ℤ) : WriteEnv where
  maxFilesize := 2 ^ 40
  seek := .ok 0
  fetch := .ok (1, [])
  caps := fun _ => .ok false
  maxInlineSize := 4096
  writeTrunc := writeTrunc
  osd := osd
  now := 1

def emptyFile : FileState := ⟨⟨0, 0, inlineNone, []⟩, 0⟩

def unusedRefs : Refs := ⟨fun _ => 0, 1, 0⟩

def unbufferedWrite (writeTrunc : ℤ) (osd : List ℤ) : Run WriteResult :=
  write (unbufferedEnv writeTrunc osd) emptyFile ⟨0, false, false, true⟩ unusedRefs 0 [1, 2]

theorem write_sound_iff_unbuffered :
    ∃ res, unbufferedWrite 0 [0] = .ok res ∧ res.ret = 2 ∧
      res.Sound (unbufferedEnv 0 [0]) emptyFile ⟨0, false, false, true⟩ unusedRefs 0 2 := by
  have hwrite : (unbufferedWrite 0 [0]).toOption.map (·.ret) = some 2 := by decide +kernel
  obtain ⟨res, hres, hret⟩ := Option.map_eq_some_iff.mp hwrite
  have hres := eq_ok_of_toOption hres
  refine ⟨res, hres, hret, (write_sound_iff hres).1 ?_⟩
  intro s hs
  have hready : prepareWrite (unbufferedEnv 0 [0]) emptyFile
      ⟨0, false, false, true⟩ unusedRefs 0 2 =
      .ok (.inr ⟨emptyFile, ⟨0, false, false, true⟩, 0, false, some 2⟩) := rfl
  cases hready.symm.trans hs
  show 0 ≤ 0 ∧ (2 < 2 ^ 31 ∧ ∀ u ∈ none, 0 ≤ u) ∧ ∀ x ∈ [0], 0 ≤ x
  simp

/-- The OSD has no space, and the write returns the size of the buffer. -/
theorem write_osdError_returnsSize :
    ∃ res, unbufferedWrite 0 [-enospc] = .ok res ∧ res.ret = 2 ∧ -enospc ∈ res.osd ∧
      ¬res.Sound (unbufferedEnv 0 [-enospc]) emptyFile ⟨0, false, false, true⟩ unusedRefs 0 2 := by
  have hwrite : (unbufferedWrite 0 [-enospc]).toOption.map (fun res => (res.ret, res.osd)) =
      some (2, [-enospc]) := by decide +kernel
  obtain ⟨res, hres, heq⟩ := Option.map_eq_some_iff.mp hwrite
  obtain ⟨hret, hosd⟩ := Prod.mk.inj heq
  have hmem : -enospc ∈ res.osd := by simp [hosd]
  refine ⟨res, eq_ok_of_toOption hres, hret, hmem, ?_⟩
  intro hsound
  exact absurd (hsound.accepted hret _ hmem) (by decide)

/-- `write_trunc` fails at once, and nothing will release what was taken for the callback. -/
example : (unbufferedWrite (-enospc) []).toOption.map
    (fun res => (res.ret, res.commit, res.refs.unsafeSyncWrite, res.refs.caps .buffer)) =
      some (-enospc, .none, 1, 1) := by
  decide +kernel

end CephDokan.Client
