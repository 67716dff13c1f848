import Mathlib.Tactic

/-!
# The access check of POSIX ACLs

`posix_acl_valid`, `posix_acl_permission` and `permission_walk_ugo`. An ACL that passes the
first is a list of entries in a fixed order, and on such a list the loop of the second takes
the decision of the access check algorithm of POSIX.1e.
-/

namespace CephDokan.PosixAcl

open List

def eio : ℤ := 5

def eacces : ℤ := 13

def einval : ℤ := 22

def mayExec : BitVec 32 := 0x1

def mayWrite : BitVec 32 := 0x2

def mayRead : BitVec 32 := 0x4

def mayNotBlock : BitVec 32 := 0x80

/-- `e_tag`; `unknown` for any other value. -/
inductive Tag
  | userObj
  | user
  | groupObj
  | group
  | mask
  | other
  | unknown (code : BitVec 16)
  deriving DecidableEq, Repr

/-- `struct posix_acl_entry`; `id` is the union of `e_uid` and `e_gid`. -/
structure Entry where
  tag : Tag
  perm : BitVec 16
  id : UInt64 := 0
  deriving DecidableEq, Repr

abbrev Acl := List Entry

/-- `INVALID_UID` and `INVALID_GID` -/
def invalidId : UInt64 := 0xffffffffffffffff

/-- `struct inode_cxt` -/
structure InodeCxt where
  uid : UInt64
  gid : UInt64

/-! ### The source -/

/-- What `posix_acl_valid` expects next; `done` stands for 0. -/
inductive State
  | userObj
  | user
  | group
  | other
  | done
  deriving DecidableEq

def idOk (id prev : UInt64) : Bool := id ≠ invalidId ∧ ¬(prev ≠ invalidId ∧ id ≤ prev)

/-- The loop of `posix_acl_valid`. -/
def validLoop : Acl → State → UInt64 → UInt64 → Bool → ℤ
  | [], state, _, _, _ => if state = .done then 0 else -einval
  | pa :: rest, state, prevUid, prevGid, needsMask =>
    if pa.perm &&& ~~~(0x7 : BitVec 16) ≠ 0 then -einval
    else
      match pa.tag with
      | .userObj =>
        if state = .userObj then validLoop rest .user prevUid prevGid needsMask else -einval
      | .user =>
        if state ≠ .user then -einval
        else if idOk pa.id prevUid then validLoop rest state pa.id prevGid true else -einval
      | .groupObj =>
        if state = .user then validLoop rest .group prevUid prevGid needsMask else -einval
      | .group =>
        if state ≠ .group then -einval
        else if idOk pa.id prevGid then validLoop rest state prevUid pa.id true else -einval
      | .mask =>
        if state ≠ .group then -einval else validLoop rest .other prevUid prevGid needsMask
      | .other =>
        if state = .other ∨ state = .group ∧ needsMask = false then
          validLoop rest .done prevUid prevGid needsMask
        else -einval
      | .unknown _ => -einval

/-- `posix_acl_valid` -/
def posixAclValid (acl : Acl) : ℤ := validLoop acl .userObj invalidId invalidId false

/-- `(perm & want) == want` -/
def contains (perm : BitVec 16) (want : BitVec 32) : Bool := perm.setWidth 32 &&& want = want

/-- The code at `check_perm`. -/
def checkPerm (pa : Entry) (want : BitVec 32) : ℤ := if contains pa.perm want then 0 else -eacces

/-- The code at `mask`; the list is what follows `pa`. -/
def maskLoop (pa : Entry) (want : BitVec 32) : Acl → ℤ
  | [] => checkPerm pa want
  | maskObj :: rest =>
    if maskObj.tag = .mask then
      if contains (pa.perm &&& maskObj.perm) want then 0 else -eacces
    else maskLoop pa want rest

/-- The loop of `posix_acl_permission`. -/
def permissionLoop (inode env : InodeCxt) (want : BitVec 32) : Acl → Bool → ℤ
  | [], _ => -eio
  | pa :: rest, found =>
    match pa.tag with
    | .userObj =>
      if inode.uid = env.uid then checkPerm pa want else permissionLoop inode env want rest found
    | .user =>
      if pa.id = env.uid then maskLoop pa want rest else permissionLoop inode env want rest found
    | .groupObj =>
      if inode.gid = env.gid then
        if contains pa.perm want then maskLoop pa want rest
        else permissionLoop inode env want rest true
      else permissionLoop inode env want rest found
    | .group =>
      if pa.id = env.gid then
        if contains pa.perm want then maskLoop pa want rest
        else permissionLoop inode env want rest true
      else permissionLoop inode env want rest found
    | .mask => permissionLoop inode env want rest found
    | .other => if found then -eacces else checkPerm pa want
    | .unknown _ => -eio

variable (inode env : InodeCxt)

/-- `posix_acl_permission` -/
def posixAclPermission (acl : Acl) (want : BitVec 32) : ℤ :=
  permissionLoop inode env (want &&& (mayRead ||| mayWrite ||| mayExec ||| mayNotBlock)) acl false

/-- What `permission_walk_ugo` reads of `struct stat`. -/
structure Stat where
  uid : UInt64
  gid : UInt64
  mode : BitVec 32

/-- One of the three checks of `permission_walk_ugo`: `bit` is asked for and `flag` is not set. -/
def denies (chk bit mode flag : BitVec 32) : Bool := chk &&& bit ≠ 0 ∧ mode &&& flag = 0

/-- The checks of `permission_walk_ugo` with the masks of one class. -/
def checkUgo (mode chk mr mw mx : BitVec 32) : ℤ :=
  if denies chk mayRead mode mr then -eacces
  else if denies chk mayWrite mode mw then -eacces
  else if denies chk mayExec mode mx then -eacces
  else 0

/-- `permission_walk_ugo`, with what `ceph_stat` returns. -/
def permissionWalkUgo (stat : Except ℤ Stat) (uid gid : UInt64) (permChk : BitVec 32) : ℤ :=
  if uid = 0 then 0
  else
    match stat with
    | .error res => res
    | .ok st =>
      if st.uid = uid then checkUgo st.mode permChk 0o400 0o200 0o100
      else if st.gid = gid then checkUgo st.mode permChk 0o040 0o020 0o010
      else checkUgo st.mode permChk 0o004 0o002 0o001

/-! ### The algorithm of POSIX.1e -/

/-- The permissions of an entry under the mask of the ACL, if there is one. -/
def masked (acl : Acl) (perm : BitVec 16) : BitVec 16 :=
  (acl.find? fun e => e.tag = .mask).elim perm fun m => perm &&& m.perm

def matchesGroup (e : Entry) : Bool :=
  e.tag = .groupObj ∧ inode.gid = env.gid ∨ e.tag = .group ∧ e.id = env.gid

/-- The access check algorithm of POSIX.1e for a process with one group. -/
def grants (acl : Acl) (want : BitVec 32) : Bool :=
  if inode.uid = env.uid then acl.any fun e => e.tag = .userObj && contains e.perm want
  else
    match acl.find? fun e => e.tag = .user ∧ e.id = env.uid with
    | some e => contains (masked acl e.perm) want
    | none =>
      if acl.any (matchesGroup inode env) then
        acl.any fun e => matchesGroup inode env e && contains e.perm want &&
          contains (masked acl e.perm) want
      else acl.any fun e => e.tag = .other && contains e.perm want

/-! ### The order of a valid ACL -/

/-- The order of the entries that `posix_acl_valid` enforces. -/
structure Ordered (acl : Acl) (u g o : Entry) (us gs ms : Acl) : Prop where
  eq : acl = u :: (us ++ g :: (gs ++ (ms ++ [o])))
  owner : u.tag = .userObj
  users : ∀ e ∈ us, e.tag = .user
  owningGroup : g.tag = .groupObj
  groups : ∀ e ∈ gs, e.tag = .group
  masks : ∀ e ∈ ms, e.tag = .mask
  others : o.tag = .other

@[simp]
theorem einval_ne_zero : einval ≠ 0 := by decide

@[simp]
theorem ite_einval_eq_zero {c} [Decidable c] {r} :
    (if c then r else -einval) = 0 ↔ c ∧ r = 0 := by
  split_ifs with hc <;> simp [hc, einval]

variable {pg pu : UInt64} {nm : Bool} {acl : Acl}

theorem validLoop_done (h : validLoop acl .done pu pg nm = 0) : acl = [] := by
  cases acl with
  | nil => rfl
  | cons pa rest =>
    exfalso
    revert h
    unfold validLoop
    cases pa.tag <;> simp

theorem validLoop_other (h : validLoop acl .other pu pg nm = 0) :
    ∃ o, acl = [o] ∧ o.tag = .other := by
  cases acl with
  | nil => simp [validLoop] at h
  | cons pa rest =>
    unfold validLoop at h
    cases ht : pa.tag <;> simp [ht] at h
    case other =>
      have hrest := validLoop_done h.2
      exact ⟨pa, by rw [hrest], ht⟩

/-- There is at most one mask, and there is one if some entry is named. -/
structure MaskRule (needsMask : Bool) (us gs ms : Acl) : Prop where
  one : ms.length ≤ 1
  needs : ms = [] → needsMask = false ∧ us = [] ∧ gs = []

/-- After the owning group come the named groups, then at most one mask, then the others. -/
theorem validLoop_group (h : validLoop acl .group pu pg nm = 0) :
    ∃ gs ms o, acl = gs ++ (ms ++ [o]) ∧ MaskRule nm [] gs ms ∧ (∀ e ∈ gs, e.tag = .group) ∧
      (∀ e ∈ ms, e.tag = .mask) ∧ o.tag = .other := by
  induction acl generalizing pg nm with
  | nil => simp [validLoop] at h
  | cons pa rest ih =>
    unfold validLoop at h
    cases ht : pa.tag <;> simp [ht] at h
    case group =>
      obtain ⟨gs, ms, o, rfl, hrule, hgs, hms, ho⟩ := ih h.2.2
      refine ⟨pa :: gs, ms, o, rfl, ⟨hrule.one, fun hnil => ?_⟩, by simpa using ⟨ht, hgs⟩, hms, ho⟩
      simpa using (hrule.needs hnil).1
    case mask =>
      obtain ⟨o, rfl, ho⟩ := validLoop_other h.2
      exact ⟨[], [pa], o, rfl, ⟨by simp, by simp⟩, by simp, by simpa using ht, ho⟩
    case other =>
      have hrest := validLoop_done h.2.2
      exact ⟨[], [], pa, by rw [hrest]; rfl, ⟨by simp, by simp [h.2.1]⟩, by simp, by simp, ht⟩

theorem validLoop_user (h : validLoop acl .user pu pg nm = 0) :
    ∃ us g gs ms o, acl = us ++ g :: (gs ++ (ms ++ [o])) ∧ MaskRule nm us gs ms ∧
      (∀ e ∈ us, e.tag = .user) ∧ g.tag = .groupObj ∧ (∀ e ∈ gs, e.tag = .group) ∧
      (∀ e ∈ ms, e.tag = .mask) ∧ o.tag = .other := by
  induction acl generalizing pu nm with
  | nil => simp [validLoop] at h
  | cons pa rest ih =>
    unfold validLoop at h
    cases ht : pa.tag <;> simp [ht] at h
    case user =>
      obtain ⟨us, g, gs, ms, o, rfl, hrule, hus, hrest⟩ := ih h.2.2
      refine ⟨pa :: us, g, gs, ms, o, rfl, ⟨hrule.one, fun hnil => ?_⟩, by simpa using ⟨ht, hus⟩,
        hrest⟩
      simpa using (hrule.needs hnil).1
    case groupObj =>
      obtain ⟨gs, ms, o, rfl, hrule, hrest⟩ := validLoop_group h.2
      exact ⟨[], pa, gs, ms, o, rfl, hrule, by simp, ht, hrest⟩

theorem exists_ordered (h : posixAclValid acl = 0) :
    ∃ u g o us gs ms, Ordered acl u g o us gs ms ∧ MaskRule false us gs ms := by
  unfold posixAclValid at h
  cases acl with
  | nil => simp [validLoop] at h
  | cons pa rest =>
    unfold validLoop at h
    cases ht : pa.tag <;> simp [ht] at h
    case userObj =>
      obtain ⟨us, g, gs, ms, o, rfl, hrule, hus, hg, hgs, hms, ho⟩ := validLoop_user h.2
      exact ⟨pa, g, o, us, gs, ms, ⟨rfl, ht, hus, hg, hgs, hms, ho⟩, hrule⟩

/-! ### The loop on an ordered ACL -/

theorem contains_iff (perm : BitVec 16) (want : BitVec 32) :
    contains perm want ↔ ∀ i, want.getLsbD i → perm.getLsbD i := by
  rw [contains, decide_eq_true_iff]
  constructor
  · intro h i hi
    rw [← h] at hi
    simp at hi
    exact hi.1.2
  · intro h
    apply BitVec.eq_of_getLsbD_eq
    intro i hi
    specialize h i
    simp [hi]
    exact h

@[simp]
theorem contains_and (p q : BitVec 16) (want : BitVec 32) :
    contains (p &&& q) want = (contains p want && contains q want) := by
  rw [Bool.eq_iff_iff, Bool.and_eq_true, contains_iff, contains_iff, contains_iff]
  grind

def maskAllows (acl : Acl) (want : BitVec 32) : Bool :=
  (acl.find? fun e => e.tag = .mask).all fun m => contains m.perm want

theorem contains_masked (acl : Acl) (perm : BitVec 16) (want : BitVec 32) :
    contains (masked acl perm) want = (contains perm want && maskAllows acl want) := by
  unfold masked maskAllows
  cases acl.find? fun e => e.tag = .mask <;> simp

theorem maskAllows_append (l1 l2 : Acl) (want : BitVec 32) (h : ∀ e ∈ l1, e.tag ≠ .mask) :
    maskAllows (l1 ++ l2) want = maskAllows l2 want := by
  have hnone : l1.find? (fun e => e.tag = .mask) = none := by simpa using h
  simp [maskAllows, find?_append, hnone]

theorem maskLoop_eq (pa : Entry) (want : BitVec 32) (rest : Acl) : maskLoop pa want rest =
      if contains pa.perm want && maskAllows rest want then 0 else -eacces := by
  induction rest with
  | nil => simp [maskLoop, checkPerm, maskAllows]
  | cons m rest ih =>
    unfold maskLoop
    by_cases hm : m.tag = .mask
    · simp [hm, maskAllows]
    · have hrest := maskAllows_append [m] rest want (by simpa using hm)
      rw [if_neg hm, ih, ← hrest, singleton_append]

section

variable (inode env : InodeCxt) (want : BitVec 32)

/-- The named users: the first with the uid of the process decides, under the mask. -/
theorem permissionLoop_users {us} (rest : Acl) (found : Bool)
    (hus : ∀ e ∈ us, e.tag = .user) : permissionLoop inode env want (us ++ rest) found =
      match us.find? fun e => e.tag = .user ∧ e.id = env.uid with
      | some e => if contains e.perm want && maskAllows rest want then 0 else -eacces
      | none => permissionLoop inode env want rest found := by
  induction us with
  | nil => rfl
  | cons pa us ih =>
    obtain ⟨hpa, hus⟩ := forall_mem_cons.mp hus
    by_cases hid : pa.id = env.uid
    · have hnomask : ∀ e ∈ us, e.tag ≠ .mask := fun e he => by simp [hus e he]
      simp [permissionLoop, hpa, hid, maskLoop_eq, maskAllows_append us rest want hnomask]
    · simpa [permissionLoop, hpa, hid] using ih hus

theorem permissionLoop_masks {ms : Acl} {o} (found : Bool) (hms : ∀ e ∈ ms, e.tag = .mask)
    (ho : o.tag = .other) : permissionLoop inode env want (ms ++ [o]) found =
      if found then -eacces else checkPerm o want := by
  induction ms with
  | nil => simp [permissionLoop, ho]
  | cons m ms ih =>
    obtain ⟨hm, hms⟩ := forall_mem_cons.mp hms
    simpa [permissionLoop, hm] using ih hms

theorem permissionLoop_group {pa} (rest : Acl) (found : Bool)
    (hpa : pa.tag = .groupObj ∨ pa.tag = .group) :
    permissionLoop inode env want (pa :: rest) found =
      if matchesGroup inode env pa && contains pa.perm want then
        if maskAllows rest want then 0 else -eacces
      else permissionLoop inode env want rest (found || matchesGroup inode env pa) := by
  rw [permissionLoop, matchesGroup]
  rcases hpa with hpa | hpa
  · by_cases hgid : inode.gid = env.gid
    · cases hc : contains pa.perm want <;> simp [hpa, hgid, hc, maskLoop_eq]
    · simp [hpa, hgid]
  · by_cases hgid : pa.id = env.gid
    · cases hc : contains pa.perm want <;> simp [hpa, hgid, hc, maskLoop_eq]
    · simp [hpa, hgid]

/-- The entries of the group class: one that matches and contains what is asked for leaves the
decision to the mask; one that matches and does not rules out the others' entry. -/
theorem permissionLoop_groups {gs ms : Acl} {o} (found : Bool)
    (hgs : ∀ e ∈ gs, e.tag = .groupObj ∨ e.tag = .group) (hms : ∀ e ∈ ms, e.tag = .mask)
    (ho : o.tag = .other) : permissionLoop inode env want (gs ++ (ms ++ [o])) found =
      if gs.any fun e => matchesGroup inode env e && contains e.perm want then
        if maskAllows (ms ++ [o]) want then 0 else -eacces
      else if found || gs.any (matchesGroup inode env) then -eacces
      else checkPerm o want := by
  induction gs generalizing found with
  | nil => simp [permissionLoop_masks inode env want found hms ho]
  | cons pa gs ih =>
    obtain ⟨hpa, hgs⟩ := forall_mem_cons.mp hgs
    have hnomask : ∀ e ∈ gs, e.tag ≠ .mask := by
      intro e he
      rcases hgs e he with h | h <;> simp [h]
    rw [cons_append, permissionLoop_group inode env want _ found hpa, ih _ hgs,
      maskAllows_append gs _ want hnomask, any_cons, any_cons]
    cases hc : matchesGroup inode env pa && contains pa.perm want
    · simp [Bool.or_assoc]
    · simp

end

/-! ### The algorithm on an ordered ACL -/

section Ordered

variable {acl us gs ms : Acl} {u g o : Entry}

section

variable (h : Ordered acl u g o us gs ms)

include h

theorem Ordered.groupClass : ∀ e ∈ g :: gs, e.tag = .groupObj ∨ e.tag = .group := by
  intro e he
  rcases mem_cons.mp he with rfl | he
  · exact .inl h.owningGroup
  · exact .inr (h.groups e he)

theorem Ordered.maskAllows_eq (want : BitVec 32) :
    maskAllows acl want = maskAllows (ms ++ [o]) want := by
  have hsplit : acl = (u :: (us ++ g :: gs)) ++ (ms ++ [o]) := by rw [h.eq]; simp
  rw [hsplit]
  apply maskAllows_append
  intro e he
  have := h.owner
  have := h.users e
  have := h.groupClass e
  grind

theorem Ordered.any_owner (p : Entry → Bool) :
    (acl.any fun e => e.tag = .userObj && p e) = p u := by
  have hus := h.users
  have hgs := h.groups
  have hms := h.masks
  rw [h.eq, Bool.eq_iff_iff]
  simp [h.owner, h.owningGroup, h.others]
  grind

theorem Ordered.any_other (p : Entry → Bool) : (acl.any fun e => e.tag = .other && p e) = p o := by
  have hus := h.users
  have hgs := h.groups
  have hms := h.masks
  rw [h.eq, Bool.eq_iff_iff]
  simp [h.owner, h.owningGroup, h.others]
  grind

theorem Ordered.find?_user (id : UInt64) : (acl.find? fun e => e.tag = .user ∧ e.id = id) =
      us.find? fun e => e.tag = .user ∧ e.id = id := by
  have hgs : gs.find? (fun e => e.tag = .user ∧ e.id = id) = none := by
    simp +contextual [h.groups]
  have hms : ms.find? (fun e => e.tag = .user ∧ e.id = id) = none := by
    simp +contextual [h.masks]
  rw [h.eq]
  simp [-Bool.decide_and, find?_append, h.owner, h.owningGroup, h.others, hgs, hms]

theorem Ordered.any_group (inode env : InodeCxt) (p : Entry → Bool) :
    (acl.any fun e => matchesGroup inode env e && p e) =
      (g :: gs).any fun e => matchesGroup inode env e && p e := by
  have hu : matchesGroup inode env u = false := by simp [matchesGroup, h.owner]
  have ho : matchesGroup inode env o = false := by simp [matchesGroup, h.others]
  have hus : us.any (fun e => matchesGroup inode env e && p e) = false := by
    simp +contextual [matchesGroup, h.users]
  have hms : ms.any (fun e => matchesGroup inode env e && p e) = false := by
    simp +contextual [matchesGroup, h.masks]
  rw [h.eq]
  simp [hu, ho, hus, hms]

theorem Ordered.grants_eq (inode env : InodeCxt) (want : BitVec 32) : grants inode env acl want =
      if inode.uid = env.uid then contains u.perm want
      else
        match us.find? fun e => e.tag = .user ∧ e.id = env.uid with
        | some e => contains e.perm want && maskAllows (ms ++ [o]) want
        | none =>
          if (g :: gs).any (matchesGroup inode env) then
            (g :: gs).any (fun e => matchesGroup inode env e && contains e.perm want) &&
              maskAllows (ms ++ [o]) want
          else contains o.perm want := by
  have hany := h.any_group inode env fun _ => true
  simp only [Bool.and_true] at hany
  -- the mask is the same for all the entries that match
  have hallows : (acl.any fun e => matchesGroup inode env e && contains e.perm want &&
      contains (masked acl e.perm) want) =
      ((g :: gs).any (fun e => matchesGroup inode env e && contains e.perm want) &&
        maskAllows (ms ++ [o]) want) := by
    simp only [Bool.and_assoc, h.any_group, contains_masked, h.maskAllows_eq]
    cases maskAllows (ms ++ [o]) want <;> simp
  rw [grants, h.any_owner, h.find?_user, h.any_other, hany, hallows]
  simp only [contains_masked, h.maskAllows_eq]

theorem Ordered.permissionLoop_eq (inode env : InodeCxt) (want : BitVec 32) :
    permissionLoop inode env want acl false = if grants inode env acl want then 0 else -eacces := by
  have hloop : permissionLoop inode env want acl false =
      if inode.uid = env.uid then checkPerm u want
      else permissionLoop inode env want (us ++ g :: (gs ++ (ms ++ [o]))) false := by
    rw [h.eq, permissionLoop, h.owner]
  have hmask : maskAllows (g :: (gs ++ (ms ++ [o]))) want = maskAllows (ms ++ [o]) want := by
    rw [← cons_append, maskAllows_append (g :: gs) _ want]
    intro e he
    rcases h.groupClass e he with htag | htag <;> simp [htag]
  rw [hloop, permissionLoop_users inode env want _ false h.users, h.grants_eq]
  by_cases huid : inode.uid = env.uid
  · rw [if_pos huid, if_pos huid, checkPerm]
  rw [if_neg huid, if_neg huid]
  cases us.find? fun e => e.tag = .user ∧ e.id = env.uid with
  | some e => simp only [hmask]
  | none =>
    have hgroups := permissionLoop_groups inode env want false h.groupClass h.masks h.others
    rw [cons_append] at hgroups
    simp only [hgroups, checkPerm, Bool.false_or]
    grind

end

end Ordered

/-! ### The three classes of a mode -/

def classBits (mode : BitVec 32) (shift : ℕ) : BitVec 16 := ((mode >>> shift) &&& 7).setWidth 16

/-- The entries of an ACL hold the bits of the owner, the group and the others of a mode. -/
def HoldsMode (acl : Acl) (mode : BitVec 32) : Prop :=
  acl.map Entry.perm = [classBits mode 6, classBits mode 3, classBits mode 0]

instance decidableHoldsMode (acl : Acl) (mode : BitVec 32) : Decidable (HoldsMode acl mode) :=
  inferInstanceAs (Decidable (_ = _))

variable {want : BitVec 32}

theorem getLsbD_of_and_seven (hwant : want &&& 7 = want) (i : ℕ) (hi : want.getLsbD i) : i < 3 := by
  rw [← hwant, BitVec.getLsbD_and, Bool.and_eq_true] at hi
  have hseven : ∀ j < 32, (7 : BitVec 32).getLsbD j → j < 3 := by decide
  exact hseven i (BitVec.lt_of_getLsbD hi.1) hi.2

theorem contains_classBits (mode : BitVec 32) (shift : ℕ) (hwant : want &&& 7 = want) :
    contains (classBits mode shift) want ↔ ∀ i < 3, want.getLsbD i → mode.getLsbD (shift + i) := by
  have hbits : ∀ i < 3, (classBits mode shift).getLsbD i = mode.getLsbD (shift + i) := by
    intro i hi
    have hseven : ∀ j < 3, (7 : BitVec 32).getLsbD j = true := by decide
    have hi16 : i < 16 := by omega
    rw [classBits, BitVec.getLsbD_setWidth, BitVec.getLsbD_and, hseven i hi,
      BitVec.getLsbD_ushiftRight]
    simp [hi16]
  rw [contains_iff]
  constructor
  · intro h i hi hw
    rw [← hbits i hi]
    exact h i hw
  · intro h i hw
    have hi := getLsbD_of_and_seven hwant i hw
    rw [hbits i hi]
    exact h i hi hw

theorem and_twoPow_eq_zero (x : BitVec 32) {i} (hi : i < 32) :
    x &&& BitVec.twoPow 32 i = 0 ↔ x.getLsbD i = false := by
  rw [BitVec.and_twoPow]
  cases x.getLsbD i
  · simp
  · have hne : BitVec.twoPow 32 i ≠ 0 := by
      intro h
      have hbit := congrArg (BitVec.getLsbD · i) h
      simp [hi] at hbit
    simpa using hne

theorem checkUgo_eq (mode : BitVec 32) {mr mw mx} (shift : ℕ)
    (hwant : want &&& 7 = want) (hshift : shift ≤ 6) (hr : mr = BitVec.twoPow 32 (shift + 2))
    (hw : mw = BitVec.twoPow 32 (shift + 1)) (hx : mx = BitVec.twoPow 32 (shift + 0)) :
    checkUgo mode want mr mw mx = if contains (classBits mode shift) want then 0 else -eacces := by
  have hdenies : ∀ i < 3, denies want (BitVec.twoPow 32 i) mode (BitVec.twoPow 32 (shift + i)) ↔
      want.getLsbD i ∧ mode.getLsbD (shift + i) = false := by
    intro i hi
    rw [denies, decide_eq_true_iff, Ne, and_twoPow_eq_zero want (by omega),
      and_twoPow_eq_zero mode (by omega), Bool.not_eq_false]
  have hcontains : contains (classBits mode shift) want ↔
      ¬(denies want mayRead mode mr ∨ denies want mayWrite mode mw ∨
        denies want mayExec mode mx) := by
    rw [contains_classBits mode shift hwant, hr, hw, hx, show mayRead = BitVec.twoPow 32 2 from rfl,
      show mayWrite = BitVec.twoPow 32 1 from rfl, show mayExec = BitVec.twoPow 32 0 from rfl,
      hdenies 2 (by decide), hdenies 1 (by decide), hdenies 0 (by decide)]
    constructor
    · intro h
      grind
    · intro h i hi
      interval_cases i <;> grind
  unfold checkUgo
  grind

theorem permissionWalkUgo_eq (mode : BitVec 32) (hwant : want &&& 7 = want) (huid : env.uid ≠ 0) :
    permissionWalkUgo (.ok ⟨inode.uid, inode.gid, mode⟩) env.uid env.gid want =
      if inode.uid = env.uid then (if contains (classBits mode 6) want then 0 else -eacces)
      else if inode.gid = env.gid then (if contains (classBits mode 3) want then 0 else -eacces)
      else (if contains (classBits mode 0) want then 0 else -eacces) := by
  have howner : checkUgo mode want 0o400 0o200 0o100 = _ :=
    checkUgo_eq mode 6 hwant (by decide) rfl rfl rfl
  have hgroup : checkUgo mode want 0o040 0o020 0o010 = _ :=
    checkUgo_eq mode 3 hwant (by decide) rfl rfl rfl
  have hother : checkUgo mode want 0o004 0o002 0o001 = _ :=
    checkUgo_eq mode 0 hwant (by decide) rfl rfl rfl
  rw [permissionWalkUgo, if_neg huid, howner, hgroup, hother]

theorem and_mayAll (hwant : want &&& 7 = want) :
    want &&& (mayRead ||| mayWrite ||| mayExec ||| mayNotBlock) = want := by
  rw [← hwant, BitVec.and_assoc]
  rfl

theorem Ordered.of_three {acl us gs ms} {u g o} (h : Ordered acl u g o us gs ms)
    (hlen : acl.length = 3) : us = [] ∧ gs = [] ∧ ms = [] := by
  rw [h.eq] at hlen
  simp only [length_cons, length_append, length_nil] at hlen
  refine ⟨?_, ?_, ?_⟩ <;> apply eq_nil_of_length_eq_zero <;> omega

theorem Ordered.grants_three {u g o} (h : Ordered acl u g o [] [] []) (inode env : InodeCxt)
    (want : BitVec 32) : grants inode env acl want =
      if inode.uid = env.uid then contains u.perm want
      else if inode.gid = env.gid then contains g.perm want
      else contains o.perm want := by
  have hallows : maskAllows [o] want = true := by simp [maskAllows, h.others]
  by_cases hgid : inode.gid = env.gid <;>
    simp [h.grants_eq, hallows, matchesGroup, h.owningGroup, hgid]

theorem posixAclPermission_eq (hvalid : posixAclValid acl = 0) (want : BitVec 32) :
    posixAclPermission inode env acl want =
      if grants inode env acl (want &&& (mayRead ||| mayWrite ||| mayExec ||| mayNotBlock)) then 0
      else -eacces := by
  obtain ⟨u, g, o, us, gs, ms, h, -⟩ := exists_ordered hvalid
  rw [posixAclPermission, h.permissionLoop_eq]

/-- `posix_acl_permission` takes the decision of the algorithm of POSIX.1e on every valid ACL,
and that of `permission_walk_ugo` on an ACL that holds a mode, unless the process is root. -/
theorem posixAclPermission_posix1e (acl : Acl) (want : BitVec 32) (hvalid : posixAclValid acl = 0)
    (hwant : want &&& 7 = want) :
    posixAclPermission inode env acl want = (if grants inode env acl want then 0 else -eacces) ∧
      ∀ mode, HoldsMode acl mode → env.uid ≠ 0 →
        posixAclPermission inode env acl want =
          permissionWalkUgo (.ok ⟨inode.uid, inode.gid, mode⟩) env.uid env.gid want := by
  obtain ⟨u, g, o, us, gs, ms, h, -⟩ := exists_ordered hvalid
  have hgrants : posixAclPermission inode env acl want =
      if grants inode env acl want then 0 else -eacces := by
    rw [posixAclPermission_eq inode env hvalid, and_mayAll hwant]
  refine ⟨hgrants, ?_⟩
  intro mode hmode huid
  have hlen : acl.length = 3 := by simpa using congrArg List.length hmode
  obtain ⟨rfl, rfl, rfl⟩ := h.of_three hlen
  rw [HoldsMode, h.eq] at hmode
  simp only [nil_append, map_cons, map_nil, List.cons.injEq, and_true] at hmode
  rw [hgrants, h.grants_three, permissionWalkUgo_eq inode env mode hwant huid, ← hmode.1,
    ← hmode.2.1, ← hmode.2.2]
  split_ifs <;> rfl

/-- A member of a named group that the mask limits, and a caller in the class of the others. -/
theorem posixAclPermission_posix1e_maskedGroup :
    (posixAclPermission ⟨1, 1⟩ ⟨2, 7⟩ [⟨.userObj, 7, 0⟩, ⟨.groupObj, 0, 0⟩, ⟨.group, 6, 7⟩,
        ⟨.mask, 4, 0⟩, ⟨.other, 7, 0⟩] 2 = -eacces) ∧
      posixAclPermission ⟨1, 1⟩ ⟨2, 7⟩ [⟨.userObj, 6, 0⟩, ⟨.groupObj, 4, 0⟩, ⟨.other, 4, 0⟩] 4 =
        permissionWalkUgo (.ok ⟨1, 1, 0o644⟩) 2 7 4 := by
  constructor
  · decide
  · exact (posixAclPermission_posix1e ⟨1, 1⟩ ⟨2, 7⟩ _ _ (by decide) (by decide)).2 0o644
      (by decide) (by decide)

/-- Root is let through by the mode and stopped by the ACL of the same three classes. -/
theorem posixAclPermission_root_denied :
    ∃ acl mode, posixAclValid acl = 0 ∧ HoldsMode acl mode ∧
      posixAclPermission ⟨1, 1⟩ ⟨0, 0⟩ acl mayRead = -eacces ∧
      permissionWalkUgo (.ok ⟨1, 1, mode⟩) 0 0 mayRead = 0 :=
  ⟨[⟨.userObj, 6, 0⟩, ⟨.groupObj, 0, 0⟩, ⟨.other, 0, 0⟩], 0o600, by decide, by decide, by decide,
    by decide⟩

end CephDokan.PosixAcl
