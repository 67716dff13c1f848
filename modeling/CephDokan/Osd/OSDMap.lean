import Mathlib.Tactic

/-!
# From a placement group to its OSDs

`_pg_to_up_acting_osds` of `OSDMap` in its six stages: CRUSH, the filter of OSDs that do not
exist, the filter of OSDs that are not up, the primary affinity, `pg_temp` and
`primary_temp`. Replicated pools shift the OSDs that remain to the left, erasure coded
pools leave a hole. CRUSH itself is a parameter: the filters are for whatever it returns.
-/

namespace CephDokan.Osd

open List

/-- `CRUSH_ITEM_NONE`, the hole -/
def crushItemNone : ℤ := 0x7fffffff

def maxPrimaryAffinity : ℕ := 0x10000

def defaultPrimaryAffinity : ℕ := 0x10000

/-! ### Placement seeds -/

/-- `crush_hashmix` -/
def crushHashmix (a b c : BitVec 32) : BitVec 32 × BitVec 32 × BitVec 32 :=
  let a := (a - b - c) ^^^ (c >>> 13)
  let b := (b - c - a) ^^^ (a <<< 8)
  let c := (c - a - b) ^^^ (b >>> 13)
  let a := (a - b - c) ^^^ (c >>> 12)
  let b := (b - c - a) ^^^ (a <<< 16)
  let c := (c - a - b) ^^^ (b >>> 5)
  let a := (a - b - c) ^^^ (c >>> 3)
  let b := (b - c - a) ^^^ (a <<< 10)
  let c := (c - a - b) ^^^ (b >>> 15)
  (a, b, c)

/-- `crush_hash32_2` with `CRUSH_HASH_RJENKINS1` -/
def crushHash32_2 (a b : BitVec 32) : BitVec 32 :=
  let hash := 1315423911#32 ^^^ a ^^^ b
  let x := 231232#32
  let y := 1232#32
  let (a, b, hash) := crushHashmix a b hash
  let (_, _, hash) := crushHashmix x a hash
  let (_, _, hash) := crushHashmix b y hash
  hash

/-- `ceph_stable_mod` -/
def cephStableMod (x b bmask : BitVec 32) : BitVec 32 :=
  if (x &&& bmask).slt b then x &&& bmask else x &&& bmask.sshiftRight 1

/-- `pg_t` -/
structure Pg where
  pool : BitVec 64
  seed : BitVec 32
  preferred : BitVec 32 := -1
  deriving DecidableEq

inductive PoolType
  | replicated
  | erasure
  deriving DecidableEq

/-- What the placement reads of `pg_pool_t`. -/
structure PgPool where
  type : PoolType
  size : ℕ
  crushRuleset : ℕ
  pgNum : BitVec 32
  pgNumMask : BitVec 32
  pgpNum : BitVec 32
  pgpNumMask : BitVec 32
  hashPsPool : Bool

namespace PgPool

def canShiftOsds (pool : PgPool) : Bool :=
  match pool.type with
  | .replicated => true
  | .erasure => false

def rawPgToPg (pool : PgPool) (pg : Pg) : Pg :=
  { pg with seed := cephStableMod pg.seed pool.pgNum pool.pgNumMask }

def rawPgToPps (pool : PgPool) (pg : Pg) : BitVec 32 :=
  let ps := cephStableMod pg.seed pool.pgpNum pool.pgpNumMask
  if pool.hashPsPool then crushHash32_2 ps (pg.pool.setWidth 32) else ps + pg.pool.setWidth 32

end PgPool

/-! ### The map -/

/-- `crush_rule_mask` -/
structure RuleMask where
  ruleset : ℕ
  type : PoolType
  minSize : ℕ
  maxSize : ℕ

/-- `CrushWrapper`: the masks of the rules, and what `do_rule` returns. -/
structure Crush where
  rules : List (Option RuleMask)
  doRule : ℕ → BitVec 32 → ℕ → List ℕ → List ℤ

/-- `crush_find_rule` -/
def Crush.findRule (crush : Crush) (ruleset : ℕ) (type : PoolType) (size : ℕ) : Option ℕ :=
  crush.rules.findIdx? fun rule => rule.any fun mask =>
    mask.ruleset = ruleset ∧ mask.type = type ∧ mask.minSize ≤ size ∧ size ≤ mask.maxSize

/-- What the placement reads of `OSDMap`. Each vector has an entry for every OSD. -/
structure OSDMap where
  maxOsd : ℕ
  osdState : List (BitVec 8)
  osdWeight : List ℕ
  osdPrimaryAffinity : Option (List ℕ)
  pools : BitVec 64 → Option PgPool
  pgTemp : Pg → Option (List ℤ)
  primaryTemp : Pg → Option ℤ
  crush : Crush
  maxOsd_lt : maxOsd < 2 ^ 31
  state_length : osdState.length = maxOsd

namespace OSDMap

variable (m : OSDMap)

def existsOsd (osd : ℤ) : Bool :=
  0 ≤ osd ∧ osd < m.maxOsd ∧ m.osdState.getD osd.toNat 0 &&& 1#8 ≠ 0

def isUp (osd : ℤ) : Bool :=
  m.existsOsd osd ∧ m.osdState.getD osd.toNat 0 &&& 2#8 ≠ 0

def isDown (osd : ℤ) : Bool := !m.isUp osd

variable (pool : PgPool) (osds : List ℤ)

/-- `_remove_nonexistent_osds` -/
def removeNonexistentOsds : List ℤ :=
  if pool.canShiftOsds then osds.filter m.existsOsd
  else osds.map fun o => if m.existsOsd o then o else crushItemNone

/-- `_pg_to_osds`, without the primary that `_raw_to_up_osds` overwrites. -/
def pgToOsds (pg : Pg) : List ℤ × BitVec 32 :=
  let pps := pool.rawPgToPps pg
  let osds :=
    match m.crush.findRule pool.crushRuleset pool.type pool.size with
    | some ruleno => m.crush.doRule ruleno pps pool.size m.osdWeight
    | none => []
  (m.removeNonexistentOsds pool osds, pps)

def skips (o : ℤ) : Bool := !m.existsOsd o || m.isDown o

/-- `_raw_to_up_osds` -/
def rawToUpOsds (raw : List ℤ) : List ℤ × ℤ :=
  if pool.canShiftOsds then
    let up := raw.filter fun o => !m.skips o
    (up, up.headD (-1))
  else
    -- the loop runs from the last position to the first
    (raw.map fun o => if m.skips o then crushItemNone else o,
      raw.foldr (fun o primary => if m.skips o then primary else o) (-1))

def anyAffinity (affinity : List ℕ) (osds : List ℤ) : Bool :=
  osds.any fun o => o ≠ crushItemNone ∧ affinity.getD o.toNat 0 ≠ defaultPrimaryAffinity

/-- The loop of `_apply_primary_affinity` that picks a position; the first OSD that was
passed over is the fallback. -/
def pickPos (affinity : List ℕ) (seed : BitVec 32) : List ℤ → ℕ → Option ℕ → Option ℕ
  | [], _, pos => pos
  | o :: rest, i, pos =>
    if o = crushItemNone then pickPos affinity seed rest (i + 1) pos
    else
      let a := affinity.getD o.toNat 0
      if a < maxPrimaryAffinity ∧ a ≤ (crushHash32_2 seed (BitVec.ofInt 32 o) >>> 16).toNat then
        pickPos affinity seed rest (i + 1) (pos.or (some i))
      else some i

/-- `for (int i = pos; i > 0; --i) osds[i] = osds[i-1]` -/
def shiftRight (osds : List ℤ) : ℕ → List ℤ
  | 0 => osds
  | i + 1 => shiftRight (osds.set (i + 1) (osds.getD i 0)) i

/-- `_apply_primary_affinity` -/
def applyPrimaryAffinity (seed : BitVec 32) (pool : PgPool) (osds : List ℤ) (primary : ℤ) :
    List ℤ × ℤ :=
  match m.osdPrimaryAffinity with
  | none => (osds, primary)
  | some affinity =>
    if anyAffinity affinity osds then
      match pickPos affinity seed osds 0 none with
      | none => (osds, primary)
      | some pos =>
        let primary := osds.getD pos 0
        if pool.canShiftOsds ∧ 0 < pos then ((shiftRight osds pos).set 0 primary, primary)
        else (osds, primary)
    else (osds, primary)

/-- The members of `pg_temp` that can be used. -/
def tempOsds (members : List ℤ) : List ℤ :=
  if pool.canShiftOsds then members.filter fun o => !m.skips o
  else members.map fun o => if m.skips o then crushItemNone else o

/-- `_get_temp_osds` -/
def getTempOsds (pg : Pg) : List ℤ × ℤ :=
  let pg := pool.rawPgToPg pg
  let tempPg := m.tempOsds pool ((m.pgTemp pg).getD [])
  match m.primaryTemp pg with
  | some primary => (tempPg, primary)
  | none => (tempPg, (tempPg.find? fun o => o ≠ crushItemNone).getD (-1))

/-- What `_pg_to_up_acting_osds` returns. -/
structure UpActing where
  up : List ℤ
  upPrimary : ℤ
  acting : List ℤ
  actingPrimary : ℤ
  deriving DecidableEq

/-- The up set: the first three stages and the primary affinity. -/
def upOsds (pg : Pg) : List ℤ × ℤ :=
  let (raw, pps) := m.pgToOsds pool pg
  let (up, primary) := m.rawToUpOsds pool raw
  m.applyPrimaryAffinity pps pool up primary

/-- `_pg_to_up_acting_osds` -/
def pgToUpActingOsds (pg : Pg) : UpActing :=
  match m.pools pg.pool with
  | none => ⟨[], -1, [], -1⟩
  | some pool =>
    let (up, upPrimary) := m.upOsds pool pg
    let (acting, actingPrimary) := m.getTempOsds pool pg
    if acting.isEmpty then
      ⟨up, upPrimary, up, if actingPrimary = -1 then upPrimary else actingPrimary⟩
    else ⟨up, upPrimary, acting, actingPrimary⟩

/-! ### The filters -/

theorem skips_eq (o : ℤ) : m.skips o = !m.isUp o := by
  unfold skips isDown isUp
  cases m.existsOsd o <;> simp

/-- A set of OSDs that are up, with holes only where OSDs do not shift, and a primary out
of it, -1 if it has no OSD. -/
structure Led (m : OSDMap) (pool : PgPool) (osds : List ℤ) (primary : ℤ) : Prop where
  up : ∀ o ∈ osds, m.isUp o ∨ o = crushItemNone ∧ pool.type = .erasure
  primary : primary = -1 ∧ (∀ o ∈ osds, o = crushItemNone) ∨ primary ∈ osds ∧ m.isUp primary

variable {m : OSDMap} {pool : PgPool} {o : ℤ} {pos : ℕ}

theorem mem_tempOsds {members}
    (h : o ∈ m.tempOsds pool members) : m.isUp o ∨ o = crushItemNone ∧ pool.type = .erasure := by
  unfold tempOsds PgPool.canShiftOsds at h
  simp only [skips_eq] at h
  cases htype : pool.type with
  | replicated =>
    left
    simpa using (mem_filter.mp (by simpa [htype] using h)).2
  | erasure =>
    simp only [htype, Bool.false_eq_true, if_false] at h
    obtain ⟨x, -, rfl⟩ := mem_map.mp h
    by_cases hx : m.isUp x <;> simp [hx]

theorem foldr_primary (m : OSDMap) (raw : List ℤ) :
    raw.foldr (fun o primary => if m.skips o then primary else o) (-1) =
      (raw.find? m.isUp).getD (-1) := by
  induction raw with
  | nil => rfl
  | cons o raw ih =>
    rw [foldr_cons, ih, skips_eq, find?_cons]
    cases m.isUp o <;> rfl

theorem rawToUpOsds_led (m : OSDMap) (pool : PgPool) (raw : List ℤ) :
    Led m pool (m.rawToUpOsds pool raw).1 (m.rawToUpOsds pool raw).2 := by
  have hsame : (m.rawToUpOsds pool raw).1 = m.tempOsds pool raw := by
    unfold rawToUpOsds tempOsds
    split_ifs <;> rfl
  refine ⟨fun o ho => mem_tempOsds (hsame ▸ ho), ?_⟩
  unfold rawToUpOsds
  split_ifs with hshift
  · cases hup : raw.filter fun o => !m.skips o with
    | nil => left; simp
    | cons o up =>
      right
      have ho : o ∈ raw.filter fun o => !m.skips o := by simp [hup]
      simpa [skips_eq] using (mem_filter.mp ho).2
  · simp only [foldr_primary]
    cases hfind : raw.find? m.isUp with
    | none =>
      left
      rw [find?_eq_none] at hfind
      refine ⟨rfl, ?_⟩
      intro o ho
      obtain ⟨x, hx, rfl⟩ := mem_map.mp ho
      simp [skips_eq, hfind x hx]
    | some o =>
      right
      have hup := find?_some hfind
      refine ⟨mem_map.mpr ⟨o, mem_of_find?_eq_some hfind, ?_⟩, hup⟩
      simp [skips_eq, hup]

/-! ### The primary affinity -/

theorem pickPos_eq_some {affinity} {seed} {osds} {i j : ℕ}
    {pos} (h : pickPos affinity seed osds i pos = some j) :
    pos = some j ∨ ∃ o, osds[j - i]? = some o ∧ i ≤ j ∧ o ≠ crushItemNone := by
  induction osds generalizing i pos with
  | nil => exact .inl h
  | cons o osds ih =>
    -- an OSD that is found behind the first position
    have hlater : ∀ pos', pickPos affinity seed osds (i + 1) pos' = some j →
        pos' = some j ∨ ∃ o', (o :: osds)[j - i]? = some o' ∧ i ≤ j ∧ o' ≠ crushItemNone := by
      intro pos' h'
      rcases ih h' with hpos | ⟨o', ho', hle, hne⟩
      · exact .inl hpos
      · right
        refine ⟨o', ?_, by omega, hne⟩
        rw [show j - i = j - (i + 1) + 1 by omega, getElem?_cons_succ]
        exact ho'
    unfold pickPos at h
    by_cases hnone : o = crushItemNone
    · rw [if_pos hnone] at h
      exact hlater pos h
    simp only at h
    have hfirst : i = j → ∃ o', (o :: osds)[j - i]? = some o' ∧ i ≤ j ∧ o' ≠ crushItemNone := by
      rintro rfl
      exact ⟨o, by simp, le_rfl, hnone⟩
    split_ifs at h
    · rcases hlater _ h with hpos | hlater
      · cases pos with
        | none => exact .inr (hfirst (by simpa using hpos))
        | some k => exact .inl (by simpa using hpos)
      · exact .inr hlater
    · exact .inr (hfirst (by simpa using h))

theorem shiftRight_getElem? (hpos : pos < osds.length) (k : ℕ) :
    (shiftRight osds pos)[k]? = if 0 < k ∧ k ≤ pos then osds[k - 1]? else osds[k]? := by
  induction pos generalizing osds with
  | zero => grind [shiftRight]
  | succ i ih =>
    have hget : osds.getD i 0 = osds[i] := by
      rw [getD_eq_getElem?_getD, getElem?_eq_getElem (Nat.lt_of_succ_lt hpos)]
      rfl
    rw [shiftRight, ih _ (by simpa using by omega), hget]
    grind

theorem moveToFront_eq (ho : osds[pos]? = some o) :
    (shiftRight osds pos).set 0 o = o :: osds.eraseIdx pos := by
  obtain ⟨hpos, -⟩ := List.getElem?_eq_some_iff.mp ho
  apply List.ext_getElem?
  intro k
  have hget := shiftRight_getElem? osds hpos k
  cases k with
  | zero => grind
  | succ k =>
    grind

theorem moveToFront_perm (ho : osds[pos]? = some o) :
    ((shiftRight osds pos).set 0 o).Perm osds := by
  obtain ⟨hpos, rfl⟩ := List.getElem?_eq_some_iff.mp ho
  rw [moveToFront_eq osds ho]
  exact getElem_cons_eraseIdx_perm hpos

/-- What the primary affinity can do: another member becomes primary and, where OSDs shift,
moves to the front. -/
theorem applyPrimaryAffinity_cases (m : OSDMap) (seed : BitVec 32) (pool : PgPool)
    (osds : List ℤ) (primary : ℤ) :
    m.applyPrimaryAffinity seed pool osds primary = (osds, primary) ∨
      ∃ osds' o, m.applyPrimaryAffinity seed pool osds primary = (osds', o) ∧ osds'.Perm osds ∧
        (pool.type = .erasure → osds' = osds) ∧ o ∈ osds ∧ o ≠ crushItemNone := by
  unfold applyPrimaryAffinity
  cases m.osdPrimaryAffinity with
  | none => exact .inl rfl
  | some affinity =>
    simp only
    split_ifs with hany
    swap
    · exact .inl rfl
    cases hpick : pickPos affinity seed osds 0 none with
    | none => exact .inl rfl
    | some pos =>
      right
      rcases pickPos_eq_some hpick with hpos | ⟨o, ho, -, hne⟩
      · simp at hpos
      rw [Nat.sub_zero] at ho
      have hget : osds.getD pos 0 = o := by simp [ho]
      have hmem : o ∈ osds := mem_of_getElem? ho
      simp only [hget]
      split_ifs with hmove
      · refine ⟨_, _, rfl, moveToFront_perm osds ho, ?_, hmem, hne⟩
        intro htype
        simp [PgPool.canShiftOsds, htype] at hmove
      · exact ⟨_, _, rfl, Perm.refl _, fun _ => rfl, hmem, hne⟩

theorem Led.applyPrimaryAffinity {osds} {primary : ℤ}
    (h : Led m pool osds primary) (seed : BitVec 32) :
    Led m pool (m.applyPrimaryAffinity seed pool osds primary).1
      (m.applyPrimaryAffinity seed pool osds primary).2 := by
  rcases applyPrimaryAffinity_cases m seed pool osds primary with heq | ⟨osds', o, heq, hperm, -,
    hmem, hne⟩
  · rwa [heq]
  · rw [heq]
    refine ⟨fun x hx => h.up x (hperm.mem_iff.mp hx), .inr ⟨hperm.mem_iff.mpr hmem, ?_⟩⟩
    exact (h.up o hmem).resolve_right fun hnone => hne hnone.1

/-! ### The whole placement -/

def withoutAffinity (m : OSDMap) : OSDMap :=
  { m with osdPrimaryAffinity := none }

/-- One set is the other, up to the order where OSDs shift. -/
def SameMembers (pool : PgPool) (osds osds' : List ℤ) : Prop :=
  osds.Perm osds' ∧ (pool.type = .erasure → osds = osds')

structure WellFormed (m : OSDMap) (pool : PgPool) (pg : Pg) (r : UpActing) : Prop where
  up : ∀ o ∈ r.up, m.isUp o ∨ o = crushItemNone ∧ pool.type = .erasure
  upPrimary : r.upPrimary = -1 ∨ r.upPrimary ∈ r.up ∧ m.isUp r.upPrimary
  acting : r.acting = r.up ∨
    ∃ members, m.pgTemp (pool.rawPgToPg pg) = some members ∧ r.acting = m.tempOsds pool members
  /-- An entry of `primary_temp` is taken as it is. -/
  actingPrimary : r.actingPrimary = -1 ∨ r.actingPrimary ∈ r.acting ∧ m.isUp r.actingPrimary ∨
    m.primaryTemp (pool.rawPgToPg pg) = some r.actingPrimary
  affinity : SameMembers pool r.up (m.withoutAffinity.pgToUpActingOsds pg).up ∧
    SameMembers pool r.acting (m.withoutAffinity.pgToUpActingOsds pg).acting

section

variable (m : OSDMap) (pool : PgPool) (pg : Pg)

theorem upOsds_led : Led m pool (m.upOsds pool pg).1 (m.upOsds pool pg).2 :=
  (rawToUpOsds_led m pool _).applyPrimaryAffinity _

theorem upOsds_sameMembers :
    SameMembers pool (m.upOsds pool pg).1 (m.withoutAffinity.upOsds pool pg).1 := by
  have hwithout : m.withoutAffinity.upOsds pool pg = m.rawToUpOsds pool (m.pgToOsds pool pg).1 :=
    rfl
  have hup : m.upOsds pool pg = m.applyPrimaryAffinity (m.pgToOsds pool pg).2 pool
      (m.rawToUpOsds pool (m.pgToOsds pool pg).1).1
      (m.rawToUpOsds pool (m.pgToOsds pool pg).1).2 := rfl
  rw [hwithout, hup]
  rcases applyPrimaryAffinity_cases m (m.pgToOsds pool pg).2 pool
    (m.rawToUpOsds pool (m.pgToOsds pool pg).1).1 (m.rawToUpOsds pool (m.pgToOsds pool pg).1).2
    with heq | ⟨osds, o, heq, hperm, herasure, -⟩
  · rw [heq]
    exact ⟨Perm.refl _, fun _ => rfl⟩
  · rw [heq]
    exact ⟨hperm, herasure⟩

theorem getTempOsds_primary : (m.getTempOsds pool pg).2 = -1 ∨
      (m.getTempOsds pool pg).2 ∈ (m.getTempOsds pool pg).1 ∧ m.isUp (m.getTempOsds pool pg).2 ∨
      m.primaryTemp (pool.rawPgToPg pg) = some (m.getTempOsds pool pg).2 := by
  cases hprimary : m.primaryTemp (pool.rawPgToPg pg) with
  | some p => simp [getTempOsds, hprimary]
  | none =>
    simp only [getTempOsds, hprimary]
    cases hfind : (m.tempOsds pool ((m.pgTemp (pool.rawPgToPg pg)).getD [])).find?
      fun o => o ≠ crushItemNone with
    | none => exact .inl rfl
    | some o =>
      have hmem := mem_of_find?_eq_some hfind
      have hne : o ≠ crushItemNone := by simpa using find?_some hfind
      exact .inr (.inl ⟨hmem, (mem_tempOsds hmem).resolve_right fun h => hne h.1⟩)

theorem getTempOsds_withoutAffinity :
    m.withoutAffinity.getTempOsds pool pg = m.getTempOsds pool pg := rfl

end

theorem pgToUpActingOsds_eq {pg : Pg} (hpool : m.pools pg.pool = some pool) :
    m.pgToUpActingOsds pg =
      if (m.getTempOsds pool pg).1.isEmpty then
        ⟨(m.upOsds pool pg).1, (m.upOsds pool pg).2, (m.upOsds pool pg).1,
          if (m.getTempOsds pool pg).2 = -1 then (m.upOsds pool pg).2
          else (m.getTempOsds pool pg).2⟩
      else
        ⟨(m.upOsds pool pg).1, (m.upOsds pool pg).2, (m.getTempOsds pool pg).1,
          (m.getTempOsds pool pg).2⟩ := by
  rw [pgToUpActingOsds, hpool]

theorem getTempOsds_fst (m : OSDMap) (pool : PgPool) (pg : Pg) :
    (m.getTempOsds pool pg).1 = m.tempOsds pool ((m.pgTemp (pool.rawPgToPg pg)).getD []) := by
  simp only [getTempOsds]
  cases m.primaryTemp (pool.rawPgToPg pg) <;> rfl

/-- Up and acting sets are well formed, for every map and every group of an existing pool. -/
theorem pgToUpActingOsds_wellFormed (m : OSDMap) (pg : Pg) (pool : PgPool)
    (hpool : m.pools pg.pool = some pool) : WellFormed m pool pg (m.pgToUpActingOsds pg) := by
  have hled := upOsds_led m pool pg
  have hsame := upOsds_sameMembers m pool pg
  have hprimary := getTempOsds_primary m pool pg
  have hwithout : m.withoutAffinity.pgToUpActingOsds pg = _ := pgToUpActingOsds_eq hpool
  rw [getTempOsds_withoutAffinity] at hwithout
  have hupPrimary := hled.primary.imp And.left id
  rw [pgToUpActingOsds_eq hpool]
  by_cases hempty : (m.getTempOsds pool pg).1.isEmpty
  · rw [if_pos hempty] at hwithout ⊢
    refine ⟨hled.up, hupPrimary, .inl rfl, ?_, ?_⟩
    · rw [List.isEmpty_iff] at hempty
      rw [hempty] at hprimary
      split_ifs with hnone
      · exact hupPrimary.imp id .inl
      · simp only [not_mem_nil, false_and, false_or] at hprimary
        exact .inr (.inr (hprimary.resolve_left hnone))
    · rw [hwithout]
      exact ⟨hsame, hsame⟩
  · rw [if_neg hempty] at hwithout ⊢
    refine ⟨hled.up, hupPrimary, .inr ?_, hprimary, ?_⟩
    · rw [getTempOsds_fst] at hempty ⊢
      cases htemp : m.pgTemp (pool.rawPgToPg pg) with
      | none => simp [htemp, tempOsds] at hempty
      | some members => exact ⟨members, rfl, by simp⟩
    · rw [hwithout]
      exact ⟨hsame, Perm.refl _, fun _ => rfl⟩

/-- Four OSDs, the second of them down, and one pool of each type. -/
def sample (primaryTemp : Pg → Option ℤ) : OSDMap where
  maxOsd := 4
  osdState := [3, 1, 3, 3]
  osdWeight := [0x10000, 0x10000, 0x10000, 0x10000]
  osdPrimaryAffinity := some [0, 0x10000, 0x10000, 0x10000]
  pools := fun id =>
    if id = 0 then some ⟨.replicated, 3, 0, 8, 7, 8, 7, false⟩
    else if id = 1 then some ⟨.erasure, 3, 1, 8, 7, 8, 7, true⟩
    else none
  pgTemp := fun _ => none
  primaryTemp := primaryTemp
  crush := ⟨[some ⟨0, .replicated, 1, 10⟩, some ⟨1, .erasure, 1, 10⟩], fun _ _ _ _ => [0, 1, 2]⟩
  maxOsd_lt := by decide
  state_length := rfl

/-- The first OSD does not want to be primary: it moves to the second place in the
replicated pool, and keeps its place in the other, which has a hole for the OSD that is down. -/
theorem pgToUpActingOsds_wellFormed_sample :
    WellFormed (sample fun _ => none) ⟨.replicated, 3, 0, 8, 7, 8, 7, false⟩ ⟨0, 5, -1⟩
        ⟨[2, 0], 2, [2, 0], 2⟩ ∧
      WellFormed (sample fun _ => none) ⟨.erasure, 3, 1, 8, 7, 8, 7, true⟩ ⟨1, 5, -1⟩
        ⟨[0, crushItemNone, 2], 2, [0, crushItemNone, 2], 2⟩ := by
  have hreplicated : (sample fun _ => none).pgToUpActingOsds ⟨0, 5, -1⟩ =
      ⟨[2, 0], 2, [2, 0], 2⟩ := by decide +kernel
  have herasure : (sample fun _ => none).pgToUpActingOsds ⟨1, 5, -1⟩ =
      ⟨[0, crushItemNone, 2], 2, [0, crushItemNone, 2], 2⟩ := by decide +kernel
  rw [← hreplicated, ← herasure]
  exact ⟨pgToUpActingOsds_wellFormed _ _ _ rfl, pgToUpActingOsds_wellFormed _ _ _ rfl⟩

/-- `primary_temp` names an OSD that is no member of the acting set, and down. -/
theorem actingPrimary_not_member :
    (((sample fun _ => some 1).pgToUpActingOsds ⟨0, 5, -1⟩).actingPrimary = 1) ∧
      1 ∉ ((sample fun _ => some 1).pgToUpActingOsds ⟨0, 5, -1⟩).acting ∧
      (sample fun _ => some 1).isUp 1 = false := by
  decide +kernel

end OSDMap

end CephDokan.Osd
