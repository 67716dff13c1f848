import CephDokan.Osd.OSDMap
import CephDokan.Osdc.FileToExtents

/-!
# Where a byte of a file is stored

`get_file_extent_osds` and `get_file_stripe_address` go from an offset to its object, to the
placement group and to the acting OSDs. The first reports how far the stripe unit goes on; the
second has the test for an empty acting set the wrong way round.
-/

namespace CephDokan.Client

open Fallible Striper Osd FileLayout

/-- What the queries read of the inode of an open file. -/
structure PlacedFile where
  ino : ℕ
  layout : FileLayout
  truncateSize : ℕ
  valid : cephFileLayoutIsValid layout = true

/-- The map of the objecter, with the hash of its pools and the addresses of its OSDs. -/
structure PlacementMap (Addr : Type) where
  osdmap : OSDMap
  hashKey : PgPool → String → BitVec 32
  clientAddr : ℤ → Addr

namespace PlacementMap

def ebadf : ℤ := 9

def einval : ℤ := 22

variable {Addr : Type} (c : PlacementMap Addr)

/-- `object_locator_to_pg` for the locator of a file, which has no key and no hash. -/
def objectLocatorToPg (oid : String) (pool : ℕ) : Run Pg :=
  match c.osdmap.pools (BitVec.ofNat 64 pool) with
  | none => .error .assertion
  | some pgPool => .ok ⟨BitVec.ofNat 64 pool, c.hashKey pgPool oid, -1⟩

def getAddr (osd : ℤ) : Run Addr := do
  assertThat (c.osdmap.existsOsd osd)
  return c.clientAddr osd

def actingOsds (f : PlacedFile) (off : ℕ) : Run (List ℤ) := do
  let extents ← fileToExtents f.ino f.layout off 1 f.truncateSize
  match extents with
  | [ex] =>
    let pg ← c.objectLocatorToPg ex.oid ex.pool
    return (c.osdmap.pgToUpActingOsds pg).acting
  | _ => .error .assertion

/-- `get_file_extent_osds`: a negative error, or the OSDs and the rest of the stripe unit. -/
def getFileExtentOsds (fd : Option PlacedFile) (off : ℕ) : Run (Except ℤ (List ℤ × ℕ)) :=
  match fd with
  | none => return .error (-ebadf)
  | some f => do
    let osds ← c.actingOsds f off
    if osds.isEmpty then return .error (-einval)
    else
      let su := f.layout.stripeUnit
      return .ok (osds, su - off % su)

def getFileStripeAddress (fd : Option PlacedFile) (off : ℕ) : Run (Except ℤ (List Addr)) :=
  match fd with
  | none => return .error (-ebadf)
  | some f => do
    let osds ← c.actingOsds f off
    -- an acting set that is not empty is the error
    if !osds.isEmpty then return .error (-einval)
    else
      let address ← osds.mapM c.getAddr
      return .ok address

/-- Both queries succeed or none, and the addresses are those of the OSDs. -/
def QueriesAgree (fd : Option PlacedFile) (off : ℕ) : Prop :=
  ((∃ address, c.getFileStripeAddress fd off = .ok (.ok address)) ↔
      ∃ r, c.getFileExtentOsds fd off = .ok (.ok r)) ∧
    ∀ address osds len, c.getFileStripeAddress fd off = .ok (.ok address) →
      c.getFileExtentOsds fd off = .ok (.ok (osds, len)) → osds.mapM c.getAddr = .ok address

end PlacementMap

namespace PlacedFile

variable (f : PlacedFile) {off n : ℕ}

/-- The range `[off, off + n)` lies in one stripe unit of one object. -/
def StaysInUnit (off n : ℕ) : Prop :=
  ∃ exs, fileToExtents f.ino f.layout off n f.truncateSize = .ok exs ∧
    ∃ o u, ∀ ex ∈ exs, ex.objectno = o ∧ u * f.layout.stripeUnit ≤ ex.offset ∧
      ex.offset + ex.length ≤ (u + 1) * f.layout.stripeUnit

/-- Up to the end of its stripe unit, a position and what follows it are in one object. -/
theorem objectAt_of_touches (hn : off % f.layout.stripeUnit + n ≤ f.layout.stripeUnit) {o}
    (ho : Touches f.layout off n o) : o = f.layout.objectAt off := by
  obtain ⟨p, hp, hlt, rfl⟩ := ho
  have hadd := (shape f.valid).object_add (p := off) (n := p - off)
    (show off % f.layout.stripeUnit + (p - off) < f.layout.stripeUnit by omega)
  rwa [Nat.add_sub_cancel' hp] at hadd

theorem filled_mod_stripeUnit (off : ℕ) :
    (shape f.valid).filled (f.layout.objectAt off) off % f.layout.stripeUnit =
      off % f.layout.stripeUnit := by
  rw [← shape_object f.valid, ← (shape f.valid).offset_eq_filled]
  exact (shape f.valid).offset_mod off

theorem staysInUnit_of_le (h0 : 0 < n) (hrange : off + n < 2 ^ 64)
    (hn : off % f.layout.stripeUnit + n ≤ f.layout.stripeUnit) : f.StaysInUnit off n := by
  obtain ⟨exs, hrun, hmem, -⟩ := fileToExtents_spec f.valid f.ino f.truncateSize h0 hrange
  refine ⟨exs, hrun, f.layout.objectAt off,
    (shape f.valid).filled (f.layout.objectAt off) off / f.layout.stripeUnit, ?_⟩
  intro ex hex
  obtain ⟨o, ho, rfl⟩ := (hmem ex).mp hex
  obtain rfl := f.objectAt_of_touches hn ho
  have hfill := (shape f.valid).filled_add (f.layout.objectAt off) hn
  rw [shape_object, if_pos rfl] at hfill
  have hmod := f.filled_mod_stripeUnit off
  have hdiv := Nat.div_add_mod' ((shape f.valid).filled (f.layout.objectAt off) off)
    f.layout.stripeUnit
  simp only [rangeExtent, extentOf, Nat.add_mul]
  exact ⟨trivial, by omega, by omega⟩

/-- The first position of the next unit is in another object, or in another unit of this one. -/
theorem le_of_staysInUnit (h0 : 0 < n) (hrange : off + n < 2 ^ 64) (h : f.StaysInUnit off n) :
    off % f.layout.stripeUnit + n ≤ f.layout.stripeUnit := by
  obtain ⟨exs, hrun, o, u, hunit⟩ := h
  obtain ⟨exs', hrun', hmem, -⟩ := fileToExtents_spec f.valid f.ino f.truncateSize h0 hrange
  cases hrun.symm.trans hrun'
  by_contra hlt
  have hsu : 0 < f.layout.stripeUnit := (shape f.valid).unit_pos
  have hpos := Nat.mod_lt off hsu
  obtain ⟨r, hr⟩ : ∃ r, off % f.layout.stripeUnit + r = f.layout.stripeUnit :=
    ⟨_, Nat.add_sub_cancel' hpos.le⟩
  have hin : ∀ p, off ≤ p → p < off + n → f.layout.objectAt p = o := by
    intro p hp hp'
    exact (hunit _ ((hmem _).mpr ⟨_, ⟨p, hp, hp', rfl⟩, rfl⟩)).1
  have hfirst := hunit _ ((hmem _).mpr ⟨_, ⟨off, le_rfl, by omega, rfl⟩, rfl⟩)
  simp only [rangeExtent, extentOf] at hfirst
  -- the object holds the rest of the unit and at least one position more
  have hrest := (shape f.valid).filled_add (f.layout.objectAt off) hr.le
  rw [shape_object, if_pos rfl] at hrest
  have hnext := (shape f.valid).filled_add (p := off + r) (n := 1)
    (f.layout.objectAt off) (Nat.mod_lt _ hsu)
  rw [shape_object, hin (off + r) (by omega) (by omega), hin off le_rfl (by omega),
    if_pos rfl] at hnext
  have hmono := (shape f.valid).filled_mono o (show off + r + 1 ≤ off + n by omega)
  rw [hin off le_rfl (by omega)] at hfirst hrest
  have hmod := f.filled_mod_stripeUnit off
  rw [hin off le_rfl (by omega)] at hmod
  have hdiv := Nat.div_add_mod' ((shape f.valid).filled o off) f.layout.stripeUnit
  have hu := Nat.mul_le_mul_right f.layout.stripeUnit ((Nat.le_div_iff_mul_le hsu).mpr hfirst.2.1)
  rw [Nat.add_mul] at hfirst
  omega

theorem isGreatest_rest (hoff : off < 2 ^ 63) :
    IsGreatest {n | off + n < 2 ^ 64 ∧ f.StaysInUnit off n}
      (f.layout.stripeUnit - off % f.layout.stripeUnit) := by
  have hsu := f.layout.stripeUnit_lt
  have hpos := Nat.mod_lt off (shape f.valid).unit_pos
  change off % f.layout.stripeUnit < f.layout.stripeUnit at hpos
  have hrange : off + (f.layout.stripeUnit - off % f.layout.stripeUnit) < 2 ^ 64 := by omega
  constructor
  · exact ⟨hrange, f.staysInUnit_of_le (by omega) hrange (by omega)⟩
  · rintro n ⟨hn, hstay⟩
    rcases Nat.eq_zero_or_pos n with rfl | h0
    · exact Nat.zero_le _
    · have := f.le_of_staysInUnit h0 hn hstay
      omega

theorem fileToExtents_one (hoff : off < 2 ^ 63) :
    ∃ ex, fileToExtents f.ino f.layout off 1 f.truncateSize = .ok [ex] ∧
      ex.pool = f.layout.pgPool := by
  obtain ⟨exs, hrun, hmem, hpair⟩ := fileToExtents_spec f.valid f.ino f.truncateSize one_pos
    (show off + 1 < 2 ^ 64 by omega)
  have hone : ∀ ex ∈ exs, ex = rangeExtent f.valid f.ino off 1 f.truncateSize
      (f.layout.objectAt off) := by
    intro ex hex
    obtain ⟨o, ho, rfl⟩ := (hmem ex).mp hex
    rw [f.objectAt_of_touches (Nat.mod_lt off (shape f.valid).unit_pos) ho]
  have hex := (hmem _).mpr ⟨_, ⟨off, le_rfl, Nat.lt_succ_self off, rfl⟩, rfl⟩
  obtain ⟨ex, rest, rfl⟩ := List.exists_cons_of_ne_nil (List.ne_nil_of_mem hex)
  cases rest with
  | nil => exact ⟨ex, hrun, by rw [hone ex List.mem_cons_self]; rfl⟩
  | cons ex' rest =>
    have hne := List.rel_of_pairwise_cons hpair List.mem_cons_self
    rw [hone ex List.mem_cons_self, hone ex' (by simp)] at hne
    exact absurd rfl hne

end PlacedFile

namespace PlacementMap

variable {Addr : Type} (c : PlacementMap Addr) {f : PlacedFile} {off : ℕ}

theorem actingOsds_cases (hoff : off < 2 ^ 63) :
    c.osdmap.pools (BitVec.ofNat 64 f.layout.pgPool) = none ∧
        c.actingOsds f off = .error .assertion ∨
      c.osdmap.pools (BitVec.ofNat 64 f.layout.pgPool) ≠ none ∧
        ∃ osds, c.actingOsds f off = .ok osds := by
  obtain ⟨ex, hrun, hpool⟩ := f.fileToExtents_one hoff
  unfold actingOsds objectLocatorToPg
  rw [hrun, ok_bind]
  simp only [hpool]
  cases hfind : c.osdmap.pools (BitVec.ofNat 64 f.layout.pgPool) with
  | none => exact .inl ⟨rfl, rfl⟩
  | some pool => exact .inr ⟨Option.some_ne_none pool, _, rfl⟩

/-- The queries agree only where both fail: the file is not open, or its pool does not exist. The
length is right wherever there is one. -/
theorem queriesAgree_iff (fd : Option PlacedFile) (hoff : off < 2 ^ 63) :
    (c.QueriesAgree fd off ↔
        ∀ f, fd = some f → c.osdmap.pools (BitVec.ofNat 64 f.layout.pgPool) = none) ∧
      ∀ f osds len, fd = some f → c.getFileExtentOsds fd off = .ok (.ok (osds, len)) →
        IsGreatest {n | off + n < 2 ^ 64 ∧ f.StaysInUnit off n} len := by
  constructor
  · cases fd with
    | none => simp [QueriesAgree, getFileStripeAddress, getFileExtentOsds]
    | some f =>
      rcases c.actingOsds_cases (f := f) hoff with ⟨hpool, hacting⟩ | ⟨hpool, osds, hacting⟩
      · simp [QueriesAgree, getFileStripeAddress, getFileExtentOsds, hacting, hpool]
      · -- an empty acting set has addresses, any other has OSDs
        cases osds with
        | nil => simp [QueriesAgree, getFileStripeAddress, getFileExtentOsds, hacting, hpool]
        | cons o osds =>
          simp [QueriesAgree, getFileStripeAddress, getFileExtentOsds, hacting, hpool]
  · rintro f osds len rfl hrun
    obtain ⟨acting, -, hrun⟩ := bind_eq_ok.mp hrun
    split_ifs at hrun
    · cases hrun
    · cases hrun
      exact f.isGreatest_rest hoff

def oneOsd : PlacementMap Unit where
  osdmap :=
    { maxOsd := 1
      osdState := [3]
      osdWeight := [0x10000]
      osdPrimaryAffinity := none
      pools := fun _ => some ⟨.replicated, 1, 0, 8, 7, 8, 7, true⟩
      pgTemp := fun _ => none
      primaryTemp := fun _ => none
      crush := ⟨[some ⟨0, .replicated, 1, 10⟩], fun _ _ _ _ => [0]⟩
      maxOsd_lt := by decide
      state_length := rfl }
  hashKey := fun _ _ => 0
  clientAddr := fun _ => ()

def oneUnitFile : PlacedFile :=
  { ino := 1
    layout := ⟨327680, 1, 327680, 0, by decide, one_lt_word, by decide⟩
    truncateSize := 0
    valid := by decide }

theorem oneOsd_queries : oneOsd.getFileExtentOsds (some oneUnitFile) 10 = .ok (.ok ([0], 327670)) ∧
    oneOsd.getFileStripeAddress (some oneUnitFile) 10 = .ok (.error (-einval)) := by
  constructor <;> rfl

theorem queriesAgree_iff_oneOsd : ¬ oneOsd.QueriesAgree (some oneUnitFile) 10 := by
  rw [(oneOsd.queriesAgree_iff (some oneUnitFile) (by decide)).1]
  intro h
  cases h _ rfl

end PlacementMap

end CephDokan.Client
