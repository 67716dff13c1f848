import CephDokan.Common.Buffer
import CephDokan.Dokan.PosixAcl

/-!
# The permission check of a path

`permission_walk` fetches the access ACL of a path and leaves the decision to it, or to the
mode bits. The calls it makes may fail, the attribute holds arbitrary bytes, and only
`ceph_lstat` does not follow a symbolic link. The check is said to fail closed when it
lets through only what the file behind the path grants.
-/

namespace CephDokan.PosixAcl

def enoent : ℤ := 2

def enomem : ℤ := 12

def erange : ℤ := 34

def enodata : ℤ := 61

def eopnotsupp : ℤ := 95

def xattrMaxSize : ℕ := 8192

def posixAclXattrVersion : BitVec 32 := 0x0002

/-! ### The calls to the file system -/

/-- A file with its attribute `system.posix_acl_access`. -/
structure File where
  stat : Stat
  acl : Option Bytes

/-- What a path names before a symbolic link at its end is followed. -/
inductive Node
  | file (f : File)
  | link (stat : Stat) (target : Option File)

def Node.stat : Node → Stat
  | .file f => f.stat
  | .link st _ => st

/-- The error of a call that could not be carried out. `ENODATA` is no such error: it
says that the file has no such attribute. -/
abbrev Errno := {e : ℕ // e ≠ 0 ∧ (e : ℤ) ≠ enodata}

/-- What one check finds: the node, the calls that fail, whether `malloc` fails, and
what is on the stack where `fuse_check_acl` has its `stbuf`. -/
structure World where
  node : Option Node
  statFails : Option Errno
  lstatFails : Option Errno
  getxattrFails : Option Errno
  mallocFails : Bool
  stack : Stat

namespace World

def file (w : World) : Option File :=
  match w.node with
  | none => none
  | some (.file f) => some f
  | some (.link _ target) => target

/-- A call that fails, or that reports about `found`. -/
def call {α : Type} (fails : Option Errno) (found : Option α) : Except ℤ α :=
  match fails, found with
  | some e, _ => .error (-(e.1 : ℤ))
  | none, none => .error (-enoent)
  | none, some a => .ok a

/-- `ceph_stat` -/
def cephStat (w : World) : Except ℤ Stat := call w.statFails (w.file.map File.stat)

/-- `ceph_lstat` -/
def cephLstat (w : World) : Except ℤ Stat :=
  call w.lstatFails (w.node.map Node.stat)

/-- `ceph_getxattr` of the access ACL into a buffer of `size` bytes. -/
def cephGetxattr (w : World) (size : ℕ) : Except ℤ Bytes := do
  let f ← call w.getxattrFails w.file
  match f.acl with
  | none => .error (-enodata)
  | some value => if value.length ≤ size then .ok value else .error (-erange)

end World

/-! ### The source -/

/-- `le16_to_cpu` of two bytes -/
def le16 (b0 b1 : UInt8) : BitVec 16 := b1.toBitVec ++ b0.toBitVec

/-- `le32_to_cpu` of four bytes -/
def le32 (b0 b1 b2 b3 : UInt8) : BitVec 32 := le16 b2 b3 ++ le16 b0 b1

/-- The `e_tag` of an entry. -/
def Tag.ofCode (code : BitVec 16) : Tag :=
  if code = 0x01 then .userObj
  else if code = 0x02 then .user
  else if code = 0x04 then .groupObj
  else if code = 0x08 then .group
  else if code = 0x10 then .mask
  else if code = 0x20 then .other
  else .unknown code

/-- `posix_acl_xattr_count` -/
def posixAclXattrCount (size : ℕ) : ℤ :=
  if size < 4 then -1 else if (size - 4) % 8 ≠ 0 then -1 else ((size - 4) / 8 : ℕ)

/-- One round of the loop of `posix_acl_from_xattr`; `none` is the jump to `fail`. -/
def readEntry (tag perm : BitVec 16) (id : BitVec 32) : Option Entry :=
  match Tag.ofCode tag with
  | .user =>
    -- 32 bits never make the 64 bits of `INVALID_UID`
    if (id.setWidth 64).toNat = invalidId.toNat then none
    else some ⟨.user, perm, UInt64.ofNat id.toNat⟩
  | .group =>
    if (id.setWidth 64).toNat = invalidId.toNat then none
    else some ⟨.group, perm, UInt64.ofNat id.toNat⟩
  | .unknown _ => none
  | t => some ⟨t, perm, 0⟩

/-- The loop of `posix_acl_from_xattr` over the bytes behind the header. -/
def readEntries : Bytes → Option Acl
  | t0 :: t1 :: p0 :: p1 :: i0 :: i1 :: i2 :: i3 :: rest => do
    let e ← readEntry (le16 t0 t1) (le16 p0 p1) (le32 i0 i1 i2 i3)
    let acl ← readEntries rest
    return e :: acl
  | _ => some []

def headerVersion : Bytes → BitVec 32
  | b0 :: b1 :: b2 :: b3 :: _ => le32 b0 b1 b2 b3
  | _ => 0

/-- `posix_acl_from_xattr`; `none` is the null pointer. -/
def posixAclFromXattr (mallocFails : Bool) (value : Bytes) : Except ℤ (Option Acl) :=
  if value.length < 4 then .error (-einval)
  else if headerVersion value ≠ posixAclXattrVersion then .error (-eopnotsupp)
  else
    let count := posixAclXattrCount value.length
    if count < 0 then .error (-einval)
    else if count = 0 then .ok none
    else if mallocFails then .error (-enomem)
    else
      match readEntries (value.drop 4) with
      | none => .error (-einval)
      | some acl => .ok (some acl)

/-- The call of `posix_acl_permission` in `fuse_check_acl`, with what `stbuf` holds. -/
def checkLoaded (stbuf : Stat) (acl : Option Acl) (uid gid : UInt64) (mask : BitVec 32) : Run ℤ :=
  match acl with
  | none => .error .dangling
  | some acl => .ok (posixAclPermission ⟨stbuf.uid, stbuf.gid⟩ ⟨uid, gid⟩ acl mask)

/-- `fuse_check_acl` -/
def fuseCheckAcl (w : World) (aclXattr : Bytes) (uid gid : UInt64) (mask : BitVec 32) : Run ℤ :=
  match posixAclFromXattr w.mallocFails aclXattr with
  | .error e => .ok e
  | .ok acl =>
    match w.cephLstat with
    -- after any error but -1 `stbuf` is what the stack held
    | .error ret => if ret = -1 then .ok (-101) else checkLoaded w.stack acl uid gid mask
    | .ok stbuf => checkLoaded stbuf acl uid gid mask

/-- `permission_walk` -/
def permissionWalk (w : World) (uid gid : UInt64) (permChk : BitVec 32) : Run ℤ :=
  if uid = 0 then .ok 0
  else
    match w.cephGetxattr xattrMaxSize with
    | .error _ | .ok [] => .ok (permissionWalkUgo w.cephStat uid gid permChk)
    | .ok aclXattr => fuseCheckAcl w aclXattr uid gid permChk

/-! ### What the file grants -/

def requested (permChk : BitVec 32) : BitVec 32 := permChk &&& (mayRead ||| mayWrite ||| mayExec)

def Stat.grants (st : Stat) (uid gid : UInt64) (permChk : BitVec 32) : Bool :=
  let shift := if st.uid = uid then 6 else if st.gid = gid then 3 else 0
  contains (classBits st.mode shift) (requested permChk)

/-- The access ACL of a file, or its mode if it has none, grants what is asked for. An
attribute that is no ACL grants nothing. -/
def File.Grants (f : File) (uid gid : UInt64) (permChk : BitVec 32) : Prop :=
  match f.acl with
  | none => f.stat.grants uid gid permChk
  | some value => ∃ acl, posixAclFromXattr false value = .ok (some acl) ∧
      grants ⟨f.stat.uid, f.stat.gid⟩ ⟨uid, gid⟩ acl (requested permChk)

/-- One of the calls that `permission_walk` makes fails. -/
def World.FetchFails (w : World) : Prop :=
  match w.cephGetxattr xattrMaxSize with
  | .error e => e ≠ -enodata ∨ w.cephStat.toOption = none
  | .ok [] => w.cephStat.toOption = none
  | .ok _ => w.cephLstat.toOption = none

/-- The check comes back, lets through only what the file behind the path grants, and
nothing after an error. -/
structure FailsClosed (w : World) (uid gid : UInt64) (permChk : BitVec 32) : Prop where
  returns : ∃ rt, permissionWalk w uid gid permChk = .ok rt
  granted : permissionWalk w uid gid permChk = .ok 0 → ∃ f, w.file = some f ∧
    f.Grants uid gid permChk
  errors : w.FetchFails → permissionWalk w uid gid permChk ≠ .ok 0

/-- The loop of `posix_acl_permission` goes past an entry: it is not about the caller, or about a
group of the caller without all that is asked for. -/
def passes (inode env : InodeCxt) (want : BitVec 32) (e : Entry) : Bool :=
  match e.tag with
  | .userObj => inode.uid ≠ env.uid
  | .user => e.id ≠ env.uid
  | .groupObj => !(inode.gid = env.gid && contains e.perm want)
  | .group => !(e.id = env.gid && contains e.perm want)
  | .mask => true
  | .other => false
  | .unknown _ => false

/-- The first entry that is not passed has all that is asked for. A mask takes away from it only if
it comes later, and an entry of the others has no say after one of a group of the caller; `found`
says that there was one before the list. -/
def lets (inode env : InodeCxt) (want : BitVec 32) (acl : Acl) (found : Bool) : Bool :=
  let passed := acl.takeWhile (passes inode env want)
  match acl.dropWhile (passes inode env want) with
  | [] => false
  | e :: later =>
    contains e.perm want &&
      match e.tag with
      | .userObj => true
      | .user => maskAllows later want
      | .groupObj => maskAllows later want
      | .group => maskAllows later want
      | .other => !(found || passed.any (matchesGroup inode env))
      | .mask => false
      | .unknown _ => false

/-- What `posix_acl_permission` keeps of the bits that are asked for. -/
def asked (permChk : BitVec 32) : BitVec 32 :=
  permChk &&& (mayRead ||| mayWrite ||| mayExec ||| mayNotBlock)

namespace World

/-- The file has an ACL that does not get to the check: the call for it fails, the buffer is too
small, or there is nothing in it. -/
def Unread (w : World) (f : File) : Prop :=
  w.getxattrFails ≠ none ∨ ∃ value, f.acl = some value ∧ (value = [] ∨ xattrMaxSize < value.length)

def Reads (w : World) (f : File) (value : Bytes) : Prop :=
  w.getxattrFails = none ∧ f.acl = some value ∧ value ≠ [] ∧ value.length ≤ xattrMaxSize

end World

/-- The condition under which the check fails closed for the file `f` behind the path, on its mode
bits, the entries of its ACL, and the owner and group that they are compared with. -/
structure Guarded (w : World) (f : File) (uid gid : UInt64) (permChk : BitVec 32) : Prop where
  /-- The mode bits do not stand in for an ACL that exists. -/
  mode : w.Unread f → w.statFails = none → f.stat.grants uid gid permChk = false
  /-- The attribute is not a header without entries, unless `ceph_lstat` fails with -1. -/
  entries : ∀ value, w.Reads f value → value.length = 4 →
    headerVersion value = posixAclXattrVersion → ∃ e, w.lstatFails = some e ∧ e.1 = 1
  /-- When `ceph_lstat` fails otherwise, no entry is for the owner and group on the stack. -/
  owner : ∀ value acl e, w.Reads f value →
    posixAclFromXattr w.mallocFails value = .ok (some acl) → w.lstatFails = some e → e.1 ≠ 1 →
    lets ⟨w.stack.uid, w.stack.gid⟩ ⟨uid, gid⟩ (asked permChk) acl false = false
  /-- The entry that decides with the owner and group of the node is no better than those that
  decide with the owner and group of the file. -/
  followed : ∀ value acl node, w.Reads f value →
    posixAclFromXattr w.mallocFails value = .ok (some acl) → w.lstatFails = none →
    w.node = some node → lets ⟨node.stat.uid, node.stat.gid⟩ ⟨uid, gid⟩ (asked permChk) acl false →
    grants ⟨f.stat.uid, f.stat.gid⟩ ⟨uid, gid⟩ acl (requested permChk)

/-! ### The entry that decides -/

section

variable (inode env : InodeCxt) (want : BitVec 32)

theorem lets_cons_of_passes {e} (h : passes inode env want e = true) (acl : Acl) (found : Bool) :
    lets inode env want (e :: acl) found =
      lets inode env want acl (found || matchesGroup inode env e) := by
  simp [lets, h, Bool.or_assoc]

theorem permissionLoop_eq_zero (acl : Acl) (found : Bool) :
    permissionLoop inode env want acl found = 0 ↔ lets inode env want acl found := by
  have heio : eio ≠ 0 := by decide
  have heacces : eacces ≠ 0 := by decide
  induction acl generalizing found with
  | nil => simp [permissionLoop, lets, heio]
  | cons pa rest ih =>
    cases hpass : passes inode env want pa with
    | true =>
      rw [lets_cons_of_passes inode env want hpass]
      refine Iff.trans ?_ (ih (found || matchesGroup inode env pa))
      unfold passes at hpass
      cases htag : pa.tag with
      | groupObj | group =>
        have hno : (matchesGroup inode env pa && contains pa.perm want) = false := by
          simpa [matchesGroup, htag, imp_iff_not_or] using hpass
        have hclass : pa.tag = .groupObj ∨ pa.tag = .group := by simp [htag]
        rw [permissionLoop_group inode env want rest found hclass, hno, if_neg Bool.false_ne_true]
      | _ => simp_all [permissionLoop, matchesGroup]
    | false =>
      unfold permissionLoop lets
      rw [List.takeWhile_cons_of_neg (by simp [hpass]),
        List.dropWhile_cons_of_neg (by simp [hpass])]
      unfold passes at hpass
      cases htag : pa.tag <;> simp_all [checkPerm, maskLoop_eq]
      all_goals cases found <;> simp_all

variable {acl : Acl}

theorem posixAclPermission_eq_zero :
    posixAclPermission inode env acl want = 0 ↔ lets inode env (asked want) acl false :=
  permissionLoop_eq_zero inode env (asked want) acl false

end

/-! ### The checks of the mode -/

theorem denies_requested (chk mode flag : BitVec 32) {bit}
    (hbit : (mayRead ||| mayWrite ||| mayExec) &&& bit = bit) :
    denies (requested chk) bit mode flag = denies chk bit mode flag := by
  rw [denies, denies, requested, BitVec.and_assoc, hbit]

theorem checkUgo_requested (mode chk mr mw mx : BitVec 32) :
    checkUgo mode (requested chk) mr mw mx = checkUgo mode chk mr mw mx := by
  rw [checkUgo, checkUgo, denies_requested _ _ _ rfl, denies_requested _ _ _ rfl,
    denies_requested _ _ _ rfl]

theorem requested_and_seven (chk : BitVec 32) : requested chk &&& 7 = requested chk := by
  rw [requested, BitVec.and_assoc]
  rfl

theorem permissionWalkUgo_ok (st : Stat) {uid} (gid : UInt64) (chk : BitVec 32) (huid : uid ≠ 0) :
    permissionWalkUgo (.ok st) uid gid chk = 0 ↔ st.grants uid gid chk := by
  have hugo := permissionWalkUgo_eq ⟨st.uid, st.gid⟩ ⟨uid, gid⟩ st.mode (requested_and_seven chk)
    huid
  simp only [permissionWalkUgo, checkUgo_requested, if_neg huid] at hugo ⊢
  rw [hugo, Stat.grants]
  have heacces : eacces ≠ 0 := by decide
  grind

namespace World

section

variable {α : Type} {fails : Option Errno} {found : Option α}

theorem call_eq_error {e} (h : call fails found = .error e) : e ≠ 0 ∧ e ≠ -enodata := by
  unfold call at h
  split at h
  · rename_i errno
    obtain ⟨n, hn, hdata⟩ := errno
    obtain rfl : -(n : ℤ) = e := by simpa using h
    exact ⟨by omega, by omega⟩
  · obtain rfl : -enoent = e := by simpa using h
    decide
  · simp at h

theorem call_eq_ok {a} (h : call fails found = .ok a) : found = some a := by
  unfold call at h
  split at h <;> simp_all

end

variable {w : World}

theorem cephStat_eq_ok {st} (h : w.cephStat = .ok st) : ∃ f, w.file = some f ∧ f.stat = st := by
  simpa using call_eq_ok h

theorem permissionWalkUgo_eq_zero {uid} (gid : UInt64) (chk : BitVec 32) (huid : uid ≠ 0) :
    permissionWalkUgo w.cephStat uid gid chk = 0 ↔
      ∃ f, w.file = some f ∧ w.statFails = none ∧ f.stat.grants uid gid chk := by
  cases hstat : w.cephStat with
  | error e =>
    simp only [permissionWalkUgo, if_neg huid]
    refine iff_of_false (call_eq_error hstat).1 ?_
    rintro ⟨f, hf, hnone, -⟩
    simp [cephStat, call, hf, hnone] at hstat
  | ok st =>
    obtain ⟨f, hf, rfl⟩ := cephStat_eq_ok hstat
    have hnone : w.statFails = none := by
      unfold cephStat call at hstat
      cases hfails : w.statFails <;> simp_all
    rw [permissionWalkUgo_ok f.stat gid chk huid]
    simp [hf, hnone]

theorem exists_node {f} (hf : w.file = some f) : ∃ node, w.node = some node := by
  unfold file at hf
  cases hnode : w.node with
  | none => simp [hnode] at hf
  | some node => exact ⟨node, rfl⟩

theorem cephLstat_eq {node} (hnode : w.node = some node) :
    w.cephLstat = w.lstatFails.elim (.ok node.stat) fun e => .error (-(e.1 : ℤ)) := by
  unfold cephLstat call
  cases w.lstatFails <;> simp [hnode]

theorem cephGetxattr_of_reads {f} {value} (hf : w.file = some f) (h : w.Reads f value) :
    w.cephGetxattr xattrMaxSize = .ok value := by
  obtain ⟨hnone, hacl, -, hlen⟩ := h
  simp [cephGetxattr, call, hf, hnone, hacl, hlen, bind, Except.bind]

theorem not_unread_of_reads {f} {value} (h : w.Reads f value) : ¬w.Unread f := by
  obtain ⟨hnone, hacl, hne, hlen⟩ := h
  rintro (hfails | ⟨value', hacl', hbad⟩)
  · exact hfails hnone
  · obtain rfl : value = value' := by simpa [hacl] using hacl'
    exact hbad.elim hne (not_lt.mpr hlen)

theorem cephGetxattr_of_unread {f} (hf : w.file = some f) (h : w.Unread f) :
    (∃ e, w.cephGetxattr xattrMaxSize = .error e ∧ e ≠ -enodata) ∨
      w.cephGetxattr xattrMaxSize = .ok [] ∧ f.acl = some [] := by
  cases hfails : w.getxattrFails with
  | some e =>
    left
    refine ⟨-(e.1 : ℤ), by simp [cephGetxattr, call, hfails, bind, Except.bind], ?_⟩
    have := e.2.2
    omega
  | none =>
    obtain ⟨value, hacl, rfl | hlong⟩ := h.resolve_left (not_not.mpr hfails)
    · right
      simp [cephGetxattr, call, hf, hfails, hacl, bind, Except.bind]
    · left
      refine ⟨-erange, ?_, by decide⟩
      simp [cephGetxattr, call, hf, hfails, hacl, bind, Except.bind, not_le.mpr hlong]

end World

theorem posixAclFromXattr_ok {m} {value} {acl}
    (h : posixAclFromXattr m value = .ok (some acl)) :
    posixAclFromXattr false value = .ok (some acl) := by
  unfold posixAclFromXattr at h ⊢
  cases m <;> grind

theorem posixAclFromXattr_error {m} {value} {e}
    (h : posixAclFromXattr m value = .error e) : e ≠ 0 := by
  have herrors : einval ≠ 0 ∧ eopnotsupp ≠ 0 ∧ enomem ≠ 0 := by decide
  unfold posixAclFromXattr at h
  grind

theorem posixAclFromXattr_eq_none {m} {value} : posixAclFromXattr m value = .ok none ↔
    value.length = 4 ∧ headerVersion value = posixAclXattrVersion := by
  unfold posixAclFromXattr posixAclXattrCount
  grind

/-! ### The check -/

variable {w : World} {f : File} {uid gid : UInt64} {chk : BitVec 32} {value : Bytes}

section Check

variable (huid : uid ≠ 0) (hf : w.file = some f)

theorem failsClosed_iff {rt} (hwalk : permissionWalk w uid gid chk = .ok rt) :
    FailsClosed w uid gid chk ↔
      (rt = 0 → (∃ f, w.file = some f ∧ f.Grants uid gid chk) ∧ ¬w.FetchFails) := by
  constructor
  · rintro h rfl
    exact ⟨h.granted hwalk, fun hfails => h.errors hfails hwalk⟩
  · intro h
    have hzero : permissionWalk w uid gid chk = .ok 0 → rt = 0 := by simp [hwalk]
    exact ⟨⟨rt, hwalk⟩, fun hok => (h (hzero hok)).1, fun hfails hok => (h (hzero hok)).2 hfails⟩

include huid

/-- No ACL gets to the check: the mode decides, which is right if the file has none. -/
theorem permissionWalk_of_mode (h : ∀ value, value ≠ [] → w.cephGetxattr xattrMaxSize ≠ .ok value) :
    permissionWalk w uid gid chk = .ok (permissionWalkUgo w.cephStat uid gid chk) := by
  simp only [permissionWalk, if_neg huid]
  cases hget : w.cephGetxattr xattrMaxSize with
  | error e => rfl
  | ok value =>
    cases value with
    | nil => rfl
    | cons b value => exact absurd hget (h _ (by simp))

include hf

theorem failsClosed_of_unread (h : w.Unread f) :
    FailsClosed w uid gid chk ↔ (w.statFails = none → f.stat.grants uid gid chk = false) := by
  have hget := World.cephGetxattr_of_unread hf h
  have hbad : ¬((∃ f, w.file = some f ∧ f.Grants uid gid chk) ∧ ¬w.FetchFails) := by
    rintro ⟨⟨f', hf', hgrants⟩, hfails⟩
    obtain rfl : f = f' := by simpa [hf] using hf'
    rcases hget with ⟨e, hget, he⟩ | ⟨hget, hacl⟩
    · exact hfails (by simp [World.FetchFails, hget, he])
    · rw [File.Grants, hacl] at hgrants
      obtain ⟨acl, hparse, -⟩ := hgrants
      cases hparse
  rw [failsClosed_iff (permissionWalk_of_mode huid (by grind)),
    World.permissionWalkUgo_eq_zero gid chk huid, imp_iff_not hbad]
  simp [hf]

theorem failsClosed_of_no_acl (hfails : w.getxattrFails = none) (hacl : f.acl = none) :
    FailsClosed w uid gid chk := by
  have hget : w.cephGetxattr xattrMaxSize = .error (-enodata) := by
    simp [World.cephGetxattr, World.call, hfails, hf, hacl, bind, Except.bind]
  rw [failsClosed_iff (permissionWalk_of_mode huid (by simp [hget])),
    World.permissionWalkUgo_eq_zero gid chk huid]
  rintro ⟨f', hf', hstat, hgrants⟩
  obtain rfl : f = f' := by simpa [hf] using hf'
  refine ⟨⟨f, hf, by rwa [File.Grants, hacl]⟩, ?_⟩
  simp [World.FetchFails, hget, World.cephStat, World.call, hstat, hf, Except.toOption]

/-- An attribute that gets to the check: a header without entries is the null pointer, and with an
ACL the owner that `stbuf` holds has to be that of the file. -/
theorem failsClosed_of_reads (h : w.Reads f value) {node : Node} (hnode : w.node = some node) :
    FailsClosed w uid gid chk ↔
      (posixAclFromXattr w.mallocFails value = .ok none → ∃ e, w.lstatFails = some e ∧ e.1 = 1) ∧
      ∀ acl, posixAclFromXattr w.mallocFails value = .ok (some acl) →
        (∀ e, w.lstatFails = some e → e.1 ≠ 1 →
          lets ⟨w.stack.uid, w.stack.gid⟩ ⟨uid, gid⟩ (asked chk) acl false = false) ∧
        (w.lstatFails = none →
          lets ⟨node.stat.uid, node.stat.gid⟩ ⟨uid, gid⟩ (asked chk) acl false →
          grants ⟨f.stat.uid, f.stat.gid⟩ ⟨uid, gid⟩ acl (requested chk)) := by
  have hget := World.cephGetxattr_of_reads hf h
  have hlstat := World.cephLstat_eq hnode
  obtain ⟨-, hacl, hvalue, -⟩ := h
  obtain ⟨b, rest, rfl⟩ := List.exists_cons_of_ne_nil hvalue
  have hwalk : permissionWalk w uid gid chk = fuseCheckAcl w (b :: rest) uid gid chk := by
    simp only [permissionWalk, if_neg huid, hget]
  have hfails : w.FetchFails ↔ w.lstatFails ≠ none := by
    rw [World.FetchFails, hget]
    cases hl : w.lstatFails <;> simp [hlstat, hl, Except.toOption]
  rw [fuseCheckAcl, hlstat] at hwalk
  cases hparse : posixAclFromXattr w.mallocFails (b :: rest) with
  | error e =>
    rw [failsClosed_iff (by rw [hwalk, hparse])]
    simp [posixAclFromXattr_error hparse]
  | ok acl? =>
    cases acl? with
    | none =>
      cases hl : w.lstatFails with
      | none =>
        refine iff_of_false ?_ (by simp)
        rintro ⟨⟨rt, hrt⟩, -, -⟩
        simp [hwalk, hparse, hl, checkLoaded] at hrt
      | some e =>
        by_cases he : e.1 = 1
        · rw [failsClosed_iff (by rw [hwalk, hparse, hl]; simp [he]; rfl)]
          simp [he]
        · refine iff_of_false ?_ (by simp [he])
          rintro ⟨⟨rt, hrt⟩, -, -⟩
          simp [hwalk, hparse, hl, checkLoaded, he] at hrt
    | some acl =>
      have hgrants : (∃ f, w.file = some f ∧ f.Grants uid gid chk) ↔
          grants ⟨f.stat.uid, f.stat.gid⟩ ⟨uid, gid⟩ acl (requested chk) := by
        simp [hf, File.Grants, hacl, posixAclFromXattr_ok hparse]
      cases hl : w.lstatFails with
      | none =>
        rw [failsClosed_iff (by rw [hwalk, hparse, hl]; rfl), posixAclPermission_eq_zero, hgrants,
          hfails]
        simp [hl]
      | some e =>
        by_cases he : e.1 = 1
        · rw [failsClosed_iff (by rw [hwalk, hparse, hl]; simp [he]; rfl)]
          simp [he]
        · rw [failsClosed_iff (by rw [hwalk, hparse, hl]; simp [he, checkLoaded]; rfl),
            posixAclPermission_eq_zero, hgrants, hfails]
          simp [hl, he]

end Check

/-! ### Paths that are no links, with valid ACLs -/

theorem contains_mono {perm} {want want'}
    (hsub : ∀ i, want.getLsbD i → want'.getLsbD i) (h : contains perm want') :
    contains perm want := by
  rw [contains_iff] at h ⊢
  exact fun i hi => h i (hsub i hi)

variable {inode env : InodeCxt}

theorem grants_mono {acl} {want want'}
    (hsub : ∀ i, want.getLsbD i → want'.getLsbD i) (h : grants inode env acl want') :
    grants inode env acl want := by
  have hmono := fun perm => @contains_mono perm want want' hsub
  -- entries of one kind that contain what is asked for
  have hany : ∀ p : Entry → Bool, (acl.any fun e => p e && contains e.perm want') →
      acl.any fun e => p e && contains e.perm want := by
    intro p hp
    simp only [List.any_eq_true, Bool.and_eq_true] at hp ⊢
    obtain ⟨e, he, hpe, hc⟩ := hp
    exact ⟨e, he, hpe, hmono _ hc⟩
  unfold grants at h ⊢
  by_cases huid : inode.uid = env.uid
  · rw [if_pos huid] at h ⊢
    exact hany _ h
  rw [if_neg huid] at h ⊢
  cases hfind : acl.find? fun e => e.tag = .user ∧ e.id = env.uid with
  | some e =>
    simp only [hfind] at h ⊢
    exact hmono _ h
  | none =>
    simp only [hfind] at h ⊢
    by_cases hgroup : acl.any (matchesGroup inode env)
    · rw [if_pos hgroup] at h ⊢
      simp only [List.any_eq_true, Bool.and_eq_true] at h ⊢
      obtain ⟨e, he, ⟨hmatch, hc⟩, hm⟩ := h
      exact ⟨e, he, ⟨hmatch, hmono _ hc⟩, hmono _ hm⟩
    · rw [if_neg hgroup] at h ⊢
      exact hany _ h

theorem grants_of_posixAclPermission {acl} {chk} (hvalid : posixAclValid acl = 0)
    (h : posixAclPermission inode env acl chk = 0) : grants inode env acl (requested chk) := by
  rw [posixAclPermission_eq inode env hvalid] at h
  have heacces : -eacces ≠ 0 := by decide
  have hgrants : grants inode env acl
      (chk &&& (mayRead ||| mayWrite ||| mayExec ||| mayNotBlock)) := by
    by_contra hno
    rw [if_neg hno] at h
    exact heacces h
  apply grants_mono _ hgrants
  intro i hi
  rw [requested, BitVec.getLsbD_and, Bool.and_eq_true] at hi
  rw [BitVec.getLsbD_and, BitVec.getLsbD_or, hi.1, hi.2]
  rfl

/-- A link has the owner and group of the file, the calls for the ACL succeed, and an ACL is
valid. -/
structure World.Plain (w : World) : Prop where
  sameOwner : ∀ f node, w.file = some f → w.node = some node →
    node.stat.uid = f.stat.uid ∧ node.stat.gid = f.stat.gid
  lstat : w.lstatFails = none
  getxattr : w.getxattrFails = none
  valid : ∀ f value, w.file = some f → f.acl = some value → value.length ≤ xattrMaxSize ∧
    ∃ acl, posixAclFromXattr w.mallocFails value = .ok (some acl) ∧ posixAclValid acl = 0

theorem World.Plain.guarded (h : w.Plain) (hf : w.file = some f) : Guarded w f uid gid chk where
  mode := by
    rintro (hfails | ⟨value, hacl, hbad⟩) -
    · exact absurd h.getxattr hfails
    · obtain ⟨hlen, acl, hparse, -⟩ := h.valid f value hf hacl
      rcases hbad with rfl | hlong
      · cases hparse
      · omega
  entries := by
    intro value hreads hlen hversion
    obtain ⟨-, acl, hparse, -⟩ := h.valid f value hf hreads.2.1
    simp [posixAclFromXattr_eq_none.mpr ⟨hlen, hversion⟩] at hparse
  owner := by
    intro value acl e _ _ hfails
    simp [h.lstat] at hfails
  followed := by
    intro value acl node hreads hparse _ hnode hlets
    obtain ⟨-, acl', hparse', hvalid⟩ := h.valid f value hf hreads.2.1
    obtain rfl : acl = acl' := by simpa [hparse] using hparse'
    obtain ⟨huid, hgid⟩ := h.sameOwner f node hf hnode
    rw [huid, hgid] at hlets
    exact grants_of_posixAclPermission hvalid ((posixAclPermission_eq_zero _ _ _).mpr hlets)

theorem guarded_of_unread (h : w.Unread f) :
    Guarded w f uid gid chk ↔ (w.statFails = none → f.stat.grants uid gid chk = false) := by
  have hreads : ∀ value, ¬w.Reads f value := fun value hr => World.not_unread_of_reads hr h
  exact ⟨fun hguarded => hguarded.mode h, fun hdenied => ⟨fun _ => hdenied,
    fun _ hr => absurd hr (hreads _), fun _ _ _ hr => absurd hr (hreads _),
    fun _ _ _ hr => absurd hr (hreads _)⟩⟩

theorem failsClosed_iff_of_reads (huid : uid ≠ 0) (hf : w.file = some f) (h : w.Reads f value) :
    FailsClosed w uid gid chk ↔ Guarded w f uid gid chk := by
  obtain ⟨node, hnode⟩ := World.exists_node hf
  have hsame : ∀ value', w.Reads f value' → value' = value := by
    intro value' h'
    simpa [h.2.1] using h'.2.1.symm
  rw [failsClosed_of_reads huid hf h hnode]
  constructor
  · rintro ⟨hnull, hacl⟩
    refine ⟨fun hu => absurd hu (World.not_unread_of_reads h), fun value' hr hlen hversion => ?_,
      fun value' acl e hr hparse => ?_, fun value' acl node' hr hparse hlstat hnode' => ?_⟩
    · obtain rfl := hsame value' hr
      exact hnull (posixAclFromXattr_eq_none.mpr ⟨hlen, hversion⟩)
    · obtain rfl := hsame value' hr
      exact (hacl acl hparse).1 e
    · obtain rfl := hsame value' hr
      obtain rfl : node = node' := by simpa [hnode] using hnode'
      exact (hacl acl hparse).2 hlstat
  · intro hguarded
    refine ⟨fun hparse => ?_, fun acl hparse => ⟨fun e => hguarded.owner value acl e h hparse,
      fun hlstat => hguarded.followed value acl node h hparse hlstat hnode⟩⟩
    obtain ⟨hlen, hversion⟩ := posixAclFromXattr_eq_none.mp hparse
    exact hguarded.entries value h hlen hversion

/-- The check fails closed exactly under `Guarded`, which holds of every path that is no link to a
file of another owner or group, whose calls succeed and whose ACL, if there is one, is valid. -/
theorem permissionWalk_failsClosed (w : World) (uid gid : UInt64) (chk : BitVec 32)
    (huid : uid ≠ 0) :
    (FailsClosed w uid gid chk ↔ ∀ f, w.file = some f → Guarded w f uid gid chk) ∧
      (w.Plain → ∀ f, w.file = some f → Guarded w f uid gid chk) := by
  refine ⟨?_, fun hplain f hf => hplain.guarded hf⟩
  cases hf : w.file with
  | none =>
    have hget : ∀ value, w.cephGetxattr xattrMaxSize ≠ .ok value := by
      cases hfails : w.getxattrFails <;>
        simp [World.cephGetxattr, World.call, hfails, hf, bind, Except.bind]
    rw [failsClosed_iff (permissionWalk_of_mode huid fun value _ => hget value),
      World.permissionWalkUgo_eq_zero gid chk huid]
    simp [hf]
  | some f =>
    simp only [Option.some.injEq, forall_eq']
    by_cases hunread : w.Unread f
    · rw [failsClosed_of_unread huid hf hunread, guarded_of_unread hunread]
    · obtain ⟨hfails, hgood⟩ := not_or.mp hunread
      rw [not_not] at hfails
      cases hacl : f.acl with
      | none =>
        refine iff_of_true (failsClosed_of_no_acl huid hf hfails hacl) ?_
        constructor <;> simp [World.Reads, hacl, hunread]
      | some value =>
        have hvalue : value ≠ [] ∧ value.length ≤ xattrMaxSize := by
          simpa [hacl] using hgood
        exact failsClosed_iff_of_reads huid hf ⟨hfails, hacl, hvalue.1, hvalue.2⟩

/-- Owner 1 with all permissions, nobody else with any. -/
def ownerOnly : Bytes :=
  [2, 0, 0, 0, 1, 0, 7, 0, 255, 255, 255, 255, 4, 0, 0, 0, 255, 255, 255, 255,
    32, 0, 0, 0, 255, 255, 255, 255]

def World.ofFile (f : File) : World := ⟨some (.file f), none, none, none, false, ⟨0, 0, 0⟩⟩

/-- The owner of a file whose ACL is for the owner only asks to read it. -/
theorem permissionWalk_failsClosed_owner :
    FailsClosed (World.ofFile ⟨⟨1, 1, 0o700⟩, some ownerOnly⟩) 1 1 mayRead ∧
      permissionWalk (World.ofFile ⟨⟨1, 1, 0o700⟩, some ownerOnly⟩) 1 1 mayRead = .ok 0 := by
  have h := permissionWalk_failsClosed (World.ofFile ⟨⟨1, 1, 0o700⟩, some ownerOnly⟩) 1 1 mayRead
    (by decide)
  refine ⟨h.1.mpr (h.2 ⟨?_, rfl, rfl, ?_⟩), by decide⟩
  · intro f node hf hnode
    obtain rfl : Node.file ⟨⟨1, 1, 0o700⟩, some ownerOnly⟩ = node := by
      simpa [World.ofFile] using hnode
    obtain rfl : ⟨⟨1, 1, 0o700⟩, some ownerOnly⟩ = f := by simpa [World.ofFile, World.file] using hf
    exact ⟨rfl, rfl⟩
  intro f value hf hacl
  obtain rfl : ⟨⟨1, 1, 0o700⟩, some ownerOnly⟩ = f := by simpa [World.ofFile, World.file] using hf
  obtain rfl : ownerOnly = value := by simpa using hacl
  exact ⟨by decide, _, rfl, by decide⟩

/-- A stranger gets through when the ACL cannot be fetched, when `ceph_lstat` fails and the
stack holds their uid, and when they own the link; a header alone ends the process. -/
theorem permissionWalk_fails_open :
    permissionWalk ⟨some (.file ⟨⟨1, 1, 0o777⟩, some ownerOnly⟩), none, none, some ⟨5, by decide⟩,
        false, ⟨0, 0, 0⟩⟩ 2 2 mayRead = .ok 0 ∧
      permissionWalk ⟨some (.file ⟨⟨1, 1, 0o777⟩, some ownerOnly⟩), none, some ⟨5, by decide⟩, none,
        false, ⟨2, 2, 0⟩⟩ 2 2 mayRead = .ok 0 ∧
      permissionWalk ⟨some (.link ⟨2, 2, 0o777⟩ (some ⟨⟨1, 1, 0o777⟩, some ownerOnly⟩)), none, none,
        none, false, ⟨0, 0, 0⟩⟩ 2 2 mayRead = .ok 0 ∧
      ¬(⟨⟨1, 1, 0o777⟩, some ownerOnly⟩ : File).Grants 2 2 mayRead ∧
      permissionWalk (World.ofFile ⟨⟨1, 1, 0o777⟩, some [2, 0, 0, 0]⟩) 2 2 mayRead =
        .error .dangling := by
  refine ⟨by decide, by decide, by decide, ?_, by decide⟩
  rintro ⟨acl, hparse, hgrants⟩
  have hread : posixAclFromXattr false ownerOnly =
      .ok (some [⟨.userObj, 7, 0⟩, ⟨.groupObj, 0, 0⟩, ⟨.other, 0, 0⟩]) := by rfl
  obtain rfl : [⟨.userObj, 7, 0⟩, ⟨.groupObj, 0, 0⟩, ⟨.other, 0, 0⟩] = acl := by
    simpa [hread] using hparse
  revert hgrants
  decide

end CephDokan.PosixAcl
