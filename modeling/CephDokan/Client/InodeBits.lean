import CephDokan.Client.Caps
import CephDokan.Include.Utime
import CephDokan.Osdc.FileToExtents

/-!
# Size and times of an inode, as the MDSs report them

`update_inode_file_bits` takes over the size from a report with a newer truncation, or with the
same one and a larger size; the times depend on the count of time warps and on the caps the client
holds. Reports may come in any order and more than once.
-/

namespace CephDokan.Client

open Fallible CapBit

/-- The fields of an `Inode` that are updated here, those of its `oset` included, and what has been
handed to `discard_set`. -/
structure FileInode where
  ino : ℕ
  layout : FileLayout
  isFile : Bool
  size : UInt64
  reportedSize : UInt64
  truncateSeq : UInt32
  truncateSize : UInt64
  osetTruncateSeq : UInt64
  osetTruncateSize : UInt64
  timeWarpSeq : UInt32
  ctime : Utime
  mtime : Utime
  atime : Utime
  inlineVersion : UInt64
  inlineData : Bytes
  discarded : List ObjectExtent
  layout_valid : cephFileLayoutIsValid layout = true

/-- The arguments of `update_inode_file_bits`. -/
structure FileBits where
  truncateSeq : UInt64
  truncateSize : UInt64
  size : UInt64
  timeWarpSeq : UInt64
  ctime : Utime
  mtime : Utime
  atime : Utime
  inlineVersion : UInt64
  inlineData : Bytes
  issued : Mask

/-- `CEPH_INLINE_NONE` -/
def cephInlineNone : UInt64 := 0xffffffffffffffff

/-- The caps with which the client may look at its own times. -/
def timeCaps : Mask := {fileExcl, fileWr, fileBuffer, authExcl, xattrExcl}

namespace FileInode

/-- `_invalidate_inode_cache` of a range; `oc` is `client_oc`. -/
def invalidateInodeCache (oc : Bool) (s : FileInode) (off len : UInt64) : Run FileInode :=
  if oc then do
    let ls ← Striper.fileToExtents s.ino s.layout off.toNat len.toNat s.truncateSize.toNat
    return { s with discarded := s.discarded ++ ls }
  else return s

variable (s : FileInode)

def takeInline (u : FileBits) : FileInode :=
  if u.inlineVersion > s.inlineVersion then
    { s with inlineData := u.inlineData, inlineVersion := u.inlineVersion }
  else s

/-- Cut the inline data to the new size. -/
def truncateInline (size : UInt64) : Run FileInode :=
  if s.inlineVersion < cephInlineNone then
    let len := u32 s.inlineData.length
    if size.toNat < len then do
      let (kept, _) ← s.inlineData.splice size.toNat (len - size.toNat)
      return { s with inlineData := kept }
    else return s
  else return s

/-- The report is of a newer truncation, or of the same one and a larger size. -/
def TakesSize (u : FileBits) : Prop :=
  u.truncateSeq.toNat > s.truncateSeq.toNat ∨
    u.truncateSeq.toNat = s.truncateSeq.toNat ∧ u.size.toNat > s.size.toNat

instance (s : FileInode) (u : FileBits) : Decidable (TakesSize s u) :=
  inferInstanceAs (Decidable (_ ∨ _))

/-- A newer truncation is recorded, and what it cuts off is dropped from the cache. -/
def takeTruncateSeq (oc : Bool) (s : FileInode) (u : FileBits) (priorSize : UInt64) :
    Run FileInode :=
  if u.truncateSeq.toNat ≠ s.truncateSeq.toNat then
    let s := { s with truncateSeq := u.truncateSeq.toUInt32, osetTruncateSeq := u.truncateSeq }
    if priorSize.toNat > u.size.toNat then
      s.invalidateInodeCache oc u.truncateSize (priorSize - u.truncateSize)
    else return s
  else return s

def takeSize (oc : Bool) (s : FileInode) (u : FileBits) : Run FileInode :=
  if s.TakesSize u then do
    let t ← takeTruncateSeq oc { s with size := u.size, reportedSize := u.size } u s.size
    t.truncateInline u.size
  else return s

def takeTruncateSize (u : FileBits) : FileInode :=
  if u.truncateSeq.toNat ≥ s.truncateSeq.toNat ∧ s.truncateSize ≠ u.truncateSize ∧ s.isFile then
    { s with truncateSize := u.truncateSize, osetTruncateSize := u.truncateSize }
  else s

def takeTimes (u : FileBits) : FileInode :=
  if u.issued ∩ timeCaps ≠ ∅ then
    let s := { s with ctime := max s.ctime u.ctime }
    if u.timeWarpSeq.toNat > s.timeWarpSeq.toNat then
      { s with mtime := u.mtime, atime := u.atime, timeWarpSeq := u.timeWarpSeq.toUInt32 }
    else if u.timeWarpSeq.toNat = s.timeWarpSeq.toNat then
      { s with mtime := max s.mtime u.mtime, atime := max s.atime u.atime }
    else s
  else if u.timeWarpSeq.toNat ≥ s.timeWarpSeq.toNat then
    { s with
      ctime := u.ctime
      mtime := u.mtime
      atime := u.atime
      timeWarpSeq := u.timeWarpSeq.toUInt32 }
  else s

def updateInodeFileBits (oc : Bool) (s : FileInode) (u : FileBits) : Run FileInode := do
  let t ← (s.takeInline u).takeSize oc u
  return (t.takeTruncateSize u).takeTimes u

def updates (oc : Bool) (s : FileInode) (us : List FileBits) : Run FileInode :=
  us.foldlM (updateInodeFileBits oc) s

/-! ### What is compared -/

def sizeKey : ℕ ×ₗ ℕ := toLex (s.truncateSeq.toNat, s.size.toNat)

def timeKey : ℕ ×ₗ Utime := toLex (s.timeWarpSeq.toNat, s.mtime)

end FileInode

namespace FileBits

def sizeKey (u : FileBits) : ℕ ×ₗ ℕ := toLex (u.truncateSeq.toNat, u.size.toNat)

end FileBits

variable {oc : Bool} {s t : FileInode} {u : FileBits}

section

variable {layout : FileLayout} (hv : cephFileLayoutIsValid layout = true)

include hv

theorem fileToExtentsLoop_isOk (format : ℕ → String) (offset truncSize bufferOffset cur : ℕ)
    {fuel left} (hfuel : left ≤ fuel) (m : SortedMap String (List ObjectExtent)) :
    ∃ m', Striper.fileToExtentsLoop layout format offset truncSize bufferOffset fuel cur left m =
      .ok m' := by
  induction fuel generalizing cur left m with
  | zero =>
    rw [Striper.fileToExtentsLoop, if_pos (by omega)]
    exact ⟨m, rfl⟩
  | succ fuel ih =>
    rw [Striper.fileToExtentsLoop]
    split_ifs with hleft
    · exact ⟨m, rfl⟩
    · obtain ⟨n, hn⟩ := Striper.objectTruncateSize_ok hv (cur / layout.stripeUnit /
        layout.stripeCount / (layout.objectSize / layout.stripeUnit) * layout.stripeCount +
          cur / layout.stripeUnit % layout.stripeCount) truncSize
      have hunit := Nat.mod_lt cur (Nat.pos_of_ne_zero (layout.valid_iff.mp hv).1)
      dsimp only
      rw [hn, ok_bind]
      apply ih
      split_ifs <;> omega

theorem fileToExtents_isOk (ino offset : ℕ) {len} (hlen : 0 < len) (truncSize : ℕ) :
    ∃ exs, Striper.fileToExtents ino layout offset len truncSize = .ok exs := by
  obtain ⟨m, hm⟩ := fileToExtentsLoop_isOk hv (Striper.objectFormat ino) offset truncSize 0
    offset (le_refl len) ∅
  unfold Striper.fileToExtents Striper.fileToExtentsFormat
  rw [assertThat_of hlen, ok_bind, assertThat_of (layout.valid_iff.mp hv).2.2.2.2.1, ok_bind, hm]
  exact ⟨_, rfl⟩

end

/-! ### One report -/

structure SameBits (s t : FileInode) : Prop where
  truncateSeq : t.truncateSeq = s.truncateSeq
  size : t.size = s.size
  timeWarpSeq : t.timeWarpSeq = s.timeWarpSeq
  mtime : t.mtime = s.mtime

theorem SameBits.trans {r} (h : SameBits r s) (h' : SameBits s t) : SameBits r t :=
  ⟨h'.1.trans h.1, h'.2.trans h.2, h'.3.trans h.3, h'.4.trans h.4⟩

theorem takeInline_same : SameBits s (s.takeInline u) := by
  unfold FileInode.takeInline
  split_ifs <;> exact ⟨rfl, rfl, rfl, rfl⟩

theorem takeTruncateSize_same : SameBits s (s.takeTruncateSize u) := by
  unfold FileInode.takeTruncateSize
  split_ifs <;> exact ⟨rfl, rfl, rfl, rfl⟩

theorem truncateInline_same (s : FileInode) (size : UInt64) :
    ∃ t, s.truncateInline size = .ok t ∧ SameBits s t := by
  have hwrap : u32 s.inlineData.length ≤ s.inlineData.length := Nat.mod_le _ _
  unfold FileInode.truncateInline Bytes.splice
  dsimp only
  split_ifs with _ hlt h0 h1 h2
  · omega
  · omega
  · omega
  · exact ⟨_, rfl, rfl, rfl, rfl, rfl⟩
  · exact ⟨_, rfl, rfl, rfl, rfl, rfl⟩
  · exact ⟨_, rfl, rfl, rfl, rfl, rfl⟩

/-- The call fails exactly when `bad` holds; if not, the four fields become those of `r`. -/
def Leaves (bad : Prop) (r : FileInode) (run : Run FileInode) : Prop :=
  (bad ∧ ∃ e, run = .error e) ∨ ¬bad ∧ ∃ t, run = .ok t ∧ SameBits r t

theorem invalidateInodeCache_leaves (oc : Bool) (s : FileInode) (off len : UInt64) :
    Leaves (oc = true ∧ len = 0) s (s.invalidateInodeCache oc off len) := by
  unfold FileInode.invalidateInodeCache
  split_ifs with hoc
  · by_cases hlen : len = 0
    · subst hlen
      exact .inl ⟨⟨hoc, rfl⟩, _, rfl⟩
    · have hpos : 0 < len.toNat := Nat.pos_of_ne_zero fun h => hlen (UInt64.toNat_inj.mp h)
      obtain ⟨ls, hls⟩ := fileToExtents_isOk s.layout_valid s.ino off.toNat hpos
        s.truncateSize.toNat
      rw [hls]
      exact .inr ⟨fun h => hlen h.2, _, rfl, rfl, rfl, rfl, rfl⟩
  · exact .inr ⟨fun h => hoc h.1, s, rfl, rfl, rfl, rfl, rfl⟩

theorem takeTruncateSeq_leaves (oc : Bool) (s : FileInode) (u : FileBits) (prior : UInt64) :
    Leaves (oc = true ∧ u.truncateSeq.toNat ≠ s.truncateSeq.toNat ∧ u.size.toNat < prior.toNat ∧
        prior = u.truncateSize) { s with truncateSeq := if u.truncateSeq.toNat ≠ s.truncateSeq.toNat
        then u.truncateSeq.toUInt32 else s.truncateSeq } (s.takeTruncateSeq oc u prior) := by
  unfold FileInode.takeTruncateSeq
  split_ifs with hseq hcut
  · have hzero : prior - u.truncateSize = 0 ↔ prior = u.truncateSize := by
      rw [UInt64.sub_eq_iff_eq_add, UInt64.zero_add]
    rcases invalidateInodeCache_leaves oc { s with
        truncateSeq := u.truncateSeq.toUInt32
        osetTruncateSeq := u.truncateSeq } u.truncateSize (prior - u.truncateSize)
      with ⟨hbad, he⟩ | ⟨hok, t, ht, hsame⟩
    · exact .inl ⟨⟨hbad.1, hseq, hcut, hzero.mp hbad.2⟩, he⟩
    · exact .inr ⟨fun h => hok ⟨h.1, hzero.mpr h.2.2.2⟩, t, ht, hsame.1, hsame.2, hsame.3, hsame.4⟩
  · exact .inr ⟨fun h => hcut h.2.2.1, _, rfl, rfl, rfl, rfl, rfl⟩
  · exact .inr ⟨fun h => hseq h.2.1, s, rfl, rfl, rfl, rfl, rfl⟩

/-- The truncation is newer, cuts something off and names the old size as the place of the cut. -/
def CutsNothing (oc : Bool) (s : FileInode) (u : FileBits) : Prop :=
  oc = true ∧ s.truncateSeq.toNat < u.truncateSeq.toNat ∧ u.size.toNat < s.size.toNat ∧
    s.size = u.truncateSize

theorem takeSize_leaves (oc : Bool) (s : FileInode) (u : FileBits) :
    Leaves (CutsNothing oc s u) { s with
      truncateSeq := if s.truncateSeq.toNat < u.truncateSeq.toNat then u.truncateSeq.toUInt32
        else s.truncateSeq
      size := if s.TakesSize u then u.size else s.size } (s.takeSize oc u) := by
  unfold FileInode.takeSize CutsNothing
  by_cases htake : s.TakesSize u
  · have hnew : u.truncateSeq.toNat ≠ s.truncateSeq.toNat ↔
        s.truncateSeq.toNat < u.truncateSeq.toNat := by
      rcases htake with hnew | ⟨hsame, -⟩ <;> omega
    rw [if_pos htake, if_pos htake]
    rcases takeTruncateSeq_leaves oc { s with size := u.size, reportedSize := u.size } u s.size
      with ⟨hbad, e, he⟩ | ⟨hok, r, hr, hsame⟩
    · rw [he]
      exact .inl ⟨⟨hbad.1, hnew.mp hbad.2.1, hbad.2.2⟩, e, rfl⟩
    · obtain ⟨t, ht, hsame'⟩ := truncateInline_same r u.size
      have hbits := hsame.trans hsame'
      rw [hr, ok_bind, ht]
      exact .inr ⟨fun h => hok ⟨h.1, hnew.mpr h.2.1, h.2.2⟩, t, rfl,
        hbits.1.trans (if_congr hnew rfl rfl), hbits.2, hbits.3, hbits.4⟩
  · have hold : ¬s.truncateSeq.toNat < u.truncateSeq.toNat := fun h => htake (.inl h)
    rw [if_neg htake, if_neg htake, if_neg hold]
    exact .inr ⟨fun h => hold h.2.1, s, rfl, rfl, rfl, rfl, rfl⟩

structure Updated (s : FileInode) (u : FileBits) (t : FileInode) : Prop where
  truncateSeq : t.truncateSeq =
    if s.truncateSeq.toNat < u.truncateSeq.toNat then u.truncateSeq.toUInt32 else s.truncateSeq
  size : t.size = if s.TakesSize u then u.size else s.size
  timeWarpSeq : t.timeWarpSeq =
    if s.timeWarpSeq.toNat < u.timeWarpSeq.toNat then u.timeWarpSeq.toUInt32 else s.timeWarpSeq
  mtime : t.mtime =
    if s.timeWarpSeq.toNat < u.timeWarpSeq.toNat then u.mtime
    else if s.timeWarpSeq.toNat = u.timeWarpSeq.toNat then
      if u.issued ∩ timeCaps = ∅ then u.mtime else max s.mtime u.mtime
    else s.mtime

theorem takeTimes_updated (s : FileInode) (u : FileBits) :
    (s.takeTimes u).truncateSeq = s.truncateSeq ∧ (s.takeTimes u).size = s.size ∧
    (s.takeTimes u).timeWarpSeq = (if s.timeWarpSeq.toNat < u.timeWarpSeq.toNat
      then u.timeWarpSeq.toUInt32 else s.timeWarpSeq) ∧
    (s.takeTimes u).mtime =
      if s.timeWarpSeq.toNat < u.timeWarpSeq.toNat then u.mtime
      else if s.timeWarpSeq.toNat = u.timeWarpSeq.toNat then
        if u.issued ∩ timeCaps = ∅ then u.mtime else max s.mtime u.mtime
      else s.mtime := by
  have hnarrow : s.timeWarpSeq.toNat = u.timeWarpSeq.toNat →
      u.timeWarpSeq.toUInt32 = s.timeWarpSeq := by
    intro heq
    rw [← UInt32.toNat_inj, UInt64.toNat_toUInt32, ← heq]
    exact Nat.mod_eq_of_lt s.timeWarpSeq.toNat_lt
  unfold FileInode.takeTimes
  by_cases hcaps : u.issued ∩ timeCaps = ∅
  · rw [if_neg (not_not.mpr hcaps)]
    rcases lt_trichotomy s.timeWarpSeq.toNat u.timeWarpSeq.toNat with hlt | heq | hgt
    · rw [if_pos hlt.le, if_pos hlt, if_pos hlt]
      exact ⟨rfl, rfl, rfl, rfl⟩
    · rw [if_pos heq.le, if_neg heq.not_lt, if_neg heq.not_lt, if_pos heq, if_pos hcaps]
      exact ⟨rfl, rfl, hnarrow heq, rfl⟩
    · rw [if_neg (not_le.mpr hgt), if_neg hgt.not_gt, if_neg hgt.not_gt, if_neg hgt.ne']
      exact ⟨rfl, rfl, rfl, rfl⟩
  · rw [if_pos hcaps]
    rcases lt_trichotomy s.timeWarpSeq.toNat u.timeWarpSeq.toNat with hlt | heq | hgt
    · rw [if_pos hlt, if_pos hlt, if_pos hlt]
      exact ⟨rfl, rfl, rfl, rfl⟩
    · rw [if_neg heq.not_lt, if_pos heq.symm, if_neg heq.not_lt, if_neg heq.not_lt, if_pos heq,
        if_neg hcaps]
      exact ⟨rfl, rfl, rfl, rfl⟩
    · rw [if_neg hgt.not_gt, if_neg hgt.ne, if_neg hgt.not_gt, if_neg hgt.not_gt, if_neg hgt.ne']
      exact ⟨rfl, rfl, rfl, rfl⟩

theorem updateInodeFileBits_spec (oc : Bool) (s : FileInode) (u : FileBits) :
    (CutsNothing oc s u ∧ ∃ e, s.updateInodeFileBits oc u = .error e) ∨
      ¬CutsNothing oc s u ∧ ∃ t, s.updateInodeFileBits oc u = .ok t ∧ Updated s u t := by
  have hinline : SameBits s (s.takeInline u) := takeInline_same
  have hcuts : CutsNothing oc (s.takeInline u) u ↔ CutsNothing oc s u := by
    unfold CutsNothing
    rw [hinline.truncateSeq, hinline.size]
  have htakes : (s.takeInline u).TakesSize u ↔ s.TakesSize u := by
    unfold FileInode.TakesSize
    rw [hinline.truncateSeq, hinline.size]
  unfold FileInode.updateInodeFileBits
  rcases takeSize_leaves oc (s.takeInline u) u with ⟨hbad, e, he⟩ | ⟨hok, r, hr, hsame⟩
  · rw [he]
    exact .inl ⟨hcuts.mp hbad, e, rfl⟩
  rw [hr, ok_bind]
  refine .inr ⟨mt hcuts.mpr hok, _, rfl, ?_⟩
  obtain ⟨hseq, hsize, hwarp, hmtime⟩ := hsame.trans (takeTruncateSize_same (u := u))
  obtain ⟨tseq, tsize, twarp, tmtime⟩ := takeTimes_updated (r.takeTruncateSize u) u
  constructor
  · rw [tseq, hseq, hinline.truncateSeq]
  · rw [tsize, hsize, hinline.size]
    exact if_congr htakes rfl rfl
  · rw [twarp, hwarp, hinline.timeWarpSeq]
  · rw [tmtime, hwarp, hmtime, hinline.timeWarpSeq, hinline.mtime]

theorem updateInodeFileBits_of_ok (h : s.updateInodeFileBits oc u = .ok t) :
    ¬CutsNothing oc s u ∧ Updated s u t := by
  rcases updateInodeFileBits_spec oc s u with ⟨-, e, he⟩ | ⟨hcut, t', ht', hupdated⟩
  · cases h.symm.trans he
  · cases h.symm.trans ht'
    exact ⟨hcut, hupdated⟩

theorem Updated.sizeKey_eq (h : Updated s u t) (hseq : u.truncateSeq.toNat < 2 ^ 32) :
    t.sizeKey = max s.sizeKey u.sizeKey := by
  have hnarrow : u.truncateSeq.toUInt32.toNat = u.truncateSeq.toNat := by
    rw [UInt64.toNat_toUInt32, Nat.mod_eq_of_lt hseq]
  unfold FileInode.sizeKey FileBits.sizeKey
  rw [h.truncateSeq, h.size]
  by_cases htake : s.TakesSize u
  · rw [if_pos htake, max_eq_right]
    · rcases htake with hnew | ⟨hsame, -⟩
      · rw [if_pos hnew, hnarrow]
      · rw [if_neg (by omega), hsame]
    · rw [Prod.Lex.toLex_le_toLex]
      exact htake.imp id fun h => ⟨h.1.symm, h.2.le⟩
  · unfold FileInode.TakesSize at htake
    push Not at htake
    rw [if_neg (not_lt.mpr htake.1), if_neg, max_eq_left]
    · rw [Prod.Lex.toLex_le_toLex]
      rcases htake.1.lt_or_eq with hlt | heq
      · exact .inl hlt
      · exact .inr ⟨heq, htake.2 heq⟩
    · unfold FileInode.TakesSize
      push Not
      exact htake

theorem Updated.timeWarpSeq_eq (h : Updated s u t) (hwarp : u.timeWarpSeq.toNat < 2 ^ 32) :
    t.timeWarpSeq.toNat = max s.timeWarpSeq.toNat u.timeWarpSeq.toNat := by
  rw [h.timeWarpSeq]
  split_ifs with hlt
  · rw [UInt64.toNat_toUInt32, Nat.mod_eq_of_lt hwarp, max_eq_right hlt.le]
  · rw [max_eq_left (not_lt.mp hlt)]

/-- The times go back only where they are taken over without a look at the own ones. -/
theorem Updated.timeKey_le_iff (h : Updated s u t) (hwarp : u.timeWarpSeq.toNat < 2 ^ 32) :
    s.timeKey ≤ t.timeKey ↔ (s.timeWarpSeq.toNat = u.timeWarpSeq.toNat → u.issued ∩ timeCaps = ∅ →
        s.mtime ≤ u.mtime) := by
  unfold FileInode.timeKey
  rw [Prod.Lex.toLex_le_toLex, h.timeWarpSeq_eq hwarp, h.mtime]
  rcases lt_trichotomy s.timeWarpSeq.toNat u.timeWarpSeq.toNat with hlt | heq | hgt
  · rw [max_eq_right hlt.le]
    exact ⟨fun _ heq => absurd heq hlt.ne, fun _ => .inl hlt⟩
  · rw [if_neg heq.not_lt, if_pos heq, max_eq_left heq.ge]
    by_cases hcaps : u.issued ∩ timeCaps = ∅
    · simp [heq, hcaps]
    · simp [hcaps]
  · rw [if_neg hgt.not_gt, if_neg hgt.ne', max_eq_left hgt.le]
    exact ⟨fun _ heq => absurd heq hgt.ne', fun _ => .inr ⟨rfl, le_rfl⟩⟩

/-! ### Any number of reports -/

/-- The report has 32-bit sequence numbers, as the messages do, does not cut at the size the inode
has, and does not bring an older time where it would be taken over as it is. -/
structure Sound (oc : Bool) (s : FileInode) (u : FileBits) : Prop where
  truncateSeq : u.truncateSeq.toNat < 2 ^ 32
  timeWarpSeq : u.timeWarpSeq.toNat < 2 ^ 32
  cut : ¬CutsNothing oc s u
  mtime : s.timeWarpSeq.toNat = u.timeWarpSeq.toNat → u.issued ∩ timeCaps = ∅ → s.mtime ≤ u.mtime

def Forward (oc : Bool) (s : FileInode) (u : FileBits) : Prop :=
  ∀ t, s.updateInodeFileBits oc u = .ok t → s.sizeKey ≤ t.sizeKey ∧ s.timeKey ≤ t.timeKey

/-- The inode has the largest size key and time warp count of the reports and of its own. -/
structure Joined (s : FileInode) (us : List FileBits) (t : FileInode) : Prop where
  size : IsGreatest (insert s.sizeKey {k | ∃ u ∈ us, u.sizeKey = k}) t.sizeKey
  timeWarpSeq : IsGreatest (insert s.timeWarpSeq.toNat {n | ∃ u ∈ us, u.timeWarpSeq.toNat = n})
    t.timeWarpSeq.toNat

theorem isGreatest_max {α β : Type*} [LinearOrder α] (key : β → α) (a x : α) (b : β) (l : List β) :
    IsGreatest (insert (max a (key b)) {k | ∃ c ∈ l, key c = k}) x ↔
      IsGreatest (insert a {k | ∃ c ∈ b :: l, key c = k}) x := by
  have hcons : {k | ∃ c ∈ b :: l, key c = k} = insert (key b) {k | ∃ c ∈ l, key c = k} := by
    ext k
    simp [eq_comm]
  simp only [hcons, IsGreatest, upperBounds_insert, Set.mem_insert_iff, Set.mem_inter_iff,
    Set.mem_Ici, max_le_iff, and_assoc]
  refine and_congr_left ?_
  rintro ⟨ha, hb, -⟩
  have hmax : x = max a (key b) ↔ x = a ∨ x = key b := by
    constructor
    · rintro rfl
      exact max_choice _ _
    · rintro (rfl | rfl)
      · exact (max_eq_left hb).symm
      · exact (max_eq_right ha).symm
  rw [hmax, or_assoc]

variable {us : List FileBits}

theorem Joined.cons_iff {r} (h : Updated s u r) (hseq : u.truncateSeq.toNat < 2 ^ 32)
    (hwarp : u.timeWarpSeq.toNat < 2 ^ 32) : Joined r us t ↔ Joined s (u :: us) t := by
  have hsize := isGreatest_max FileBits.sizeKey s.sizeKey t.sizeKey u us
  have htime := isGreatest_max (fun u : FileBits => u.timeWarpSeq.toNat) s.timeWarpSeq.toNat
    t.timeWarpSeq.toNat u us
  rw [← h.sizeKey_eq hseq] at hsize
  rw [← h.timeWarpSeq_eq hwarp] at htime
  exact ⟨fun hj => ⟨hsize.mp hj.size, htime.mp hj.timeWarpSeq⟩,
    fun hj => ⟨hsize.mpr hj.size, htime.mpr hj.timeWarpSeq⟩⟩

theorem Joined.narrow (h : Joined s us t) (hu : u ∈ us) :
    u.truncateSeq.toNat < 2 ^ 32 ∧ u.timeWarpSeq.toNat < 2 ^ 32 := by
  have hsize : u.sizeKey ≤ t.sizeKey := h.size.2 (.inr ⟨u, hu, rfl⟩)
  have htime : u.timeWarpSeq.toNat ≤ t.timeWarpSeq.toNat := h.timeWarpSeq.2 (.inr ⟨u, hu, rfl⟩)
  have hseq := Prod.Lex.monotone_fst _ _ hsize
  exact ⟨hseq.trans_lt t.truncateSeq.toNat_lt, htime.trans_lt t.timeWarpSeq.toNat_lt⟩

theorem Updated.forward_iff (h : Updated s u t) (hrun : s.updateInodeFileBits oc u = .ok t)
    (hseq : u.truncateSeq.toNat < 2 ^ 32) (hwarp : u.timeWarpSeq.toNat < 2 ^ 32) : Forward oc s u ↔
      (s.timeWarpSeq.toNat = u.timeWarpSeq.toNat → u.issued ∩ timeCaps = ∅ →
        s.mtime ≤ u.mtime) := by
  rw [← h.timeKey_le_iff hwarp]
  constructor
  · intro hforward
    exact (hforward t hrun).2
  · intro htime r hr
    rw [hrun] at hr
    cases hr
    refine ⟨?_, htime⟩
    rw [h.sizeKey_eq hseq]
    exact le_max_left _ _

/-- For any caps, exclusive ones or not, and any list of reports: every call returns, no
report moves a key back and the inode ends with the largest keys, exactly when every report is
sound for the inode it meets. -/
theorem updates_joined_iff (oc : Bool) (s : FileInode) (us : List FileBits) :
    (Fallible.Along (FileInode.updateInodeFileBits oc) (Forward oc) s us ∧
      ∃ t, s.updates oc us = .ok t ∧ Joined s us t) ↔
    Fallible.Along (FileInode.updateInodeFileBits oc) (Sound oc) s us := by
  induction us generalizing s with
  | nil =>
    refine ⟨fun _ => trivial, fun _ => ⟨trivial, s, rfl, ?_, ?_⟩⟩
    · simp
    · simp
  | cons u us ih =>
    constructor
    · rintro ⟨⟨hforward, hrest⟩, t, hrun, hjoined⟩
      obtain ⟨r, hr, hrun⟩ := foldlM_cons_eq_ok.mp hrun
      obtain ⟨hcut, hupdated⟩ := updateInodeFileBits_of_ok hr
      obtain ⟨hseq, hwarp⟩ := hjoined.narrow List.mem_cons_self
      refine ⟨⟨hseq, hwarp, hcut,
        (hupdated.forward_iff hr hseq hwarp).mp hforward⟩, ?_⟩
      intro r' hr'
      rw [hr] at hr'
      cases hr'
      exact (ih r).mp ⟨hrest r hr, t, hrun, (Joined.cons_iff hupdated hseq hwarp).mpr hjoined⟩
    · rintro ⟨hsound, hrest⟩
      obtain ⟨r, hr, hupdated⟩ :=
        ((updateInodeFileBits_spec oc s u).resolve_left fun h => hsound.cut h.1).2
      obtain ⟨hforward, t, hrun, hjoined⟩ := (ih r).mpr (hrest r hr)
      refine ⟨⟨?_, ?_⟩, t, foldlM_cons_eq_ok.mpr ⟨r, hr, hrun⟩, ?_⟩
      · exact (hupdated.forward_iff hr hsound.truncateSeq hsound.timeWarpSeq).mpr hsound.mtime
      · intro r' hr'
        rw [hr] at hr'
        cases hr'
        exact hforward
      · exact (Joined.cons_iff hupdated hsound.truncateSeq hsound.timeWarpSeq).mp hjoined

/-- An inode of 10 bytes, last changed at second 5. -/
def FileInode.sample : FileInode where
  ino := 1
  layout := { stripeUnit := 65536, stripeCount := 1, objectSize := 65536, pgPool := 0 }
  isFile := true
  size := 10
  reportedSize := 10
  truncateSeq := 1
  truncateSize := 0
  osetTruncateSeq := 1
  osetTruncateSize := 0
  timeWarpSeq := 0
  ctime := ⟨5, 0⟩
  mtime := ⟨5, 0⟩
  atime := ⟨5, 0⟩
  inlineVersion := 0
  inlineData := []
  discarded := []
  layout_valid := rfl

/-- Without caps, a late report of the same time warp sets the time back; and a truncation that
names the old size as the place of its cut fails an assertion. -/
theorem updates_late_report_back :
    (∃ t, FileInode.sample.updates true
        [⟨1, 0, 10, 0, ⟨3, 0⟩, ⟨3, 0⟩, ⟨3, 0⟩, 0, [], ∅⟩] = .ok t ∧
      t.timeKey < FileInode.sample.timeKey) ∧
    (FileInode.sample.updates true
      [⟨2, 10, 4, 0, ⟨5, 0⟩, ⟨5, 0⟩, ⟨5, 0⟩, 0, [], ∅⟩]).map (fun _ => ()) =
        .error .assertion := by
  refine ⟨⟨_, rfl, ?_⟩, rfl⟩
  rw [FileInode.timeKey, FileInode.timeKey, Prod.Lex.toLex_lt_toLex]
  exact .inr ⟨rfl, by decide⟩

end CephDokan.Client
