import CephDokan.Dokan.PermissionWalk

/-!
# Which attributes are read as an ACL

`posix_acl_from_xattr` compares the id of a named entry, of 32 bits in the attribute, with an
invalid id of 64 bits, so that no id is refused. Apart from this, and from `malloc`, it reads the
attributes that are well formed.
-/

namespace CephDokan.PosixAcl

structure RawEntry where
  tag : BitVec 16
  perm : BitVec 16
  id : BitVec 32

/-- The entries behind the header, of eight bytes each. -/
def rawEntries : Bytes → List RawEntry
  | t0 :: t1 :: p0 :: p1 :: i0 :: i1 :: i2 :: i3 :: rest =>
    ⟨le16 t0 t1, le16 p0 p1, le32 i0 i1 i2 i3⟩ :: rawEntries rest
  | _ => []

namespace RawEntry

def Known (r : RawEntry) : Prop := ∀ code, Tag.ofCode r.tag ≠ .unknown code

def Named (r : RawEntry) : Prop := Tag.ofCode r.tag = .user ∨ Tag.ofCode r.tag = .group

instance (r : RawEntry) : Decidable r.Named := inferInstanceAs (Decidable (_ ∨ _))

def entry (r : RawEntry) : Entry :=
  ⟨Tag.ofCode r.tag, r.perm, if r.Named then UInt64.ofNat r.id.toNat else 0⟩

def Nobody (r : RawEntry) : Prop := r.Named ∧ r.id = 0xffffffff

end RawEntry

/-- The attribute has the length and the version of an ACL with entries, of known tags. -/
def Framed (value : Bytes) : Prop :=
  4 < value.length ∧ (value.length - 4) % 8 = 0 ∧ headerVersion value = posixAclXattrVersion ∧
    ∀ r ∈ rawEntries (value.drop 4), r.Known

def WellFormed (value : Bytes) : Prop :=
  Framed value ∧ ¬∃ r ∈ rawEntries (value.drop 4), r.Nobody

/-- A well-formed attribute is read as the ACL that it encodes, and any other one is an error, or
no ACL if it has no entries. -/
structure ReadExactly (mallocFails : Bool) (value : Bytes) : Prop where
  accepts : WellFormed value → ∃ acl, posixAclFromXattr mallocFails value = .ok (some acl) ∧
    acl.length = (value.length - 4) / 8 ∧ acl = (rawEntries (value.drop 4)).map RawEntry.entry
  rejects : ¬WellFormed value → ∀ acl, posixAclFromXattr mallocFails value = .ok acl →
    value.length = 4 ∧ acl = none

theorem readEntry_eq_some {r : RawEntry} {e} :
    readEntry r.tag r.perm r.id = some e ↔ r.Known ∧ r.entry = e := by
  have hid : ¬(r.id.setWidth 64).toNat = invalidId.toNat := by
    have hinvalid : invalidId.toNat = 2 ^ 64 - 1 := rfl
    rw [BitVec.toNat_setWidth, hinvalid]
    omega
  unfold readEntry
  simp only [if_neg hid]
  cases htag : Tag.ofCode r.tag <;>
    simp [RawEntry.Known, RawEntry.entry, RawEntry.Named, htag]

theorem readEntries_eq_some {l} {acl} : readEntries l = some acl ↔
    (∀ r ∈ rawEntries l, r.Known) ∧ (rawEntries l).map RawEntry.entry = acl := by
  induction l using rawEntries.induct generalizing acl with
  | case1 t0 t1 p0 p1 i0 i1 i2 i3 rest ih =>
    have hhead (e : Entry) :=
      readEntry_eq_some (r := ⟨le16 t0 t1, le16 p0 p1, le32 i0 i1 i2 i3⟩) (e := e)
    rw [rawEntries, readEntries, List.forall_mem_cons, List.map_cons]
    simp only [Option.bind_eq_bind, Option.bind_eq_some_iff, hhead, ih]
    constructor
    · rintro ⟨e, ⟨hknown, rfl⟩, acl, ⟨hrest, rfl⟩, heq⟩
      exact ⟨⟨hknown, hrest⟩, Option.some.inj heq⟩
    · rintro ⟨⟨hknown, hrest⟩, rfl⟩
      exact ⟨_, ⟨hknown, rfl⟩, _, ⟨hrest, rfl⟩, rfl⟩
  | case2 l hshort =>
    rw [rawEntries.eq_2 _ hshort, readEntries.eq_2 _ hshort]
    simp

theorem length_rawEntries (l : Bytes) : (rawEntries l).length = l.length / 8 := by
  induction l using rawEntries.induct with
  | case1 t0 t1 p0 p1 i0 i1 i2 i3 rest ih =>
    simp only [rawEntries, List.length_cons, ih]
    omega
  | case2 l hshort =>
    rw [rawEntries.eq_2 _ hshort]
    rcases l with _ | ⟨_, _ | ⟨_, _ | ⟨_, _ | ⟨_, _ | ⟨_, _ | ⟨_, _ | ⟨_, _ | ⟨_, rest⟩⟩⟩⟩⟩⟩⟩⟩
    case cons.cons.cons.cons.cons.cons.cons.cons => exact absurd rfl (hshort _ _ _ _ _ _ _ _ rest)
    all_goals simp

theorem posixAclFromXattr_eq_ok {mallocFails} {value} {acl} :
    posixAclFromXattr mallocFails value = .ok acl ↔ Framed value ∧ mallocFails = false ∧
          acl = some ((rawEntries (value.drop 4)).map RawEntry.entry) ∨
        value.length = 4 ∧ headerVersion value = posixAclXattrVersion ∧ acl = none := by
  unfold posixAclFromXattr Framed
  by_cases hshort : value.length < 4
  · rw [if_pos hshort]
    simp
    omega
  by_cases hversion : headerVersion value = posixAclXattrVersion
  swap
  · simp [hshort, hversion]
  by_cases hwhole : (value.length - 4) % 8 = 0
  swap
  · simp [posixAclXattrCount, hshort, hversion, hwhole]
    omega
  rw [if_neg hshort, if_neg (not_not.mpr hversion), posixAclXattrCount, if_neg hshort,
    if_neg (not_not.mpr hwhole)]
  rw [if_neg (by omega)]
  by_cases hlen : value.length = 4
  · simp [hlen, hversion, eq_comm]
  · rw [if_neg (by omega)]
    cases mallocFails with
    | true => simp [hlen]
    | false =>
      constructor
      · intro hread
        cases hentries : readEntries (value.drop 4) with
        | none => simp [hentries] at hread
        | some entries =>
          obtain ⟨hknown, rfl⟩ := readEntries_eq_some.mp hentries
          rw [hentries] at hread
          cases hread
          exact .inl ⟨⟨by omega, hwhole, hversion, hknown⟩, rfl, rfl⟩
      · rintro (⟨⟨-, -, -, hknown⟩, -, rfl⟩ | ⟨hzero, -⟩)
        · rw [readEntries_eq_some.mpr ⟨hknown, rfl⟩]
          rfl
        · exact absurd hzero hlen

/-- An attribute is read as it should be unless it has the frame of an ACL and either `malloc`
fails or a named entry has the invalid id. -/
theorem readExactly_iff (mallocFails : Bool) (value : Bytes) :
    ReadExactly mallocFails value ↔
      (Framed value → (mallocFails ↔ ∃ r ∈ rawEntries (value.drop 4), r.Nobody)) := by
  have hlength : ((rawEntries (value.drop 4)).map RawEntry.entry).length =
      (value.length - 4) / 8 := by
    rw [List.length_map, length_rawEntries, List.length_drop]
  constructor
  · rintro ⟨haccepts, hrejects⟩ hframed
    by_cases hnobody : ∃ r ∈ rawEntries (value.drop 4), r.Nobody
    · refine iff_of_true (by_contra fun hmalloc => ?_) hnobody
      have hread := posixAclFromXattr_eq_ok.mpr (.inl ⟨hframed, by simpa using hmalloc, rfl⟩)
      obtain ⟨hlen, -⟩ := hrejects (fun hwell => hwell.2 hnobody) _ hread
      exact absurd hframed.1 (by omega)
    · obtain ⟨acl, hread, -⟩ := haccepts ⟨hframed, hnobody⟩
      rcases posixAclFromXattr_eq_ok.mp hread with ⟨-, hmalloc, -⟩ | ⟨hlen, -⟩
      · exact iff_of_false (by simp [hmalloc]) hnobody
      · exact absurd hframed.1 (by omega)
  · intro h
    constructor
    · rintro ⟨hframed, hnobody⟩
      have hmalloc : mallocFails = false := by simpa [hnobody] using h hframed
      exact ⟨_, posixAclFromXattr_eq_ok.mpr (.inl ⟨hframed, hmalloc, rfl⟩), hlength, rfl⟩
    · intro hwell acl hread
      rcases posixAclFromXattr_eq_ok.mp hread with ⟨hframed, hmalloc, -⟩ | ⟨hlen, -, hnull⟩
      · refine absurd ⟨hframed, fun hnobody => ?_⟩ hwell
        simpa [hmalloc] using (h hframed).mpr hnobody
      · exact ⟨hlen, hnull⟩

/-- A named user without an id. -/
theorem posixAclFromXattr_nobody :
    posixAclFromXattr false [2, 0, 0, 0, 2, 0, 7, 0, 255, 255, 255, 255] =
      .ok (some [⟨.user, 7, 0xffffffff⟩]) := by
  decide

end CephDokan.PosixAcl
