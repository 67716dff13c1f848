import CephDokan.Lib.Trace
import CephDokan.Mds.Flock
import Mathlib.Data.List.TakeWhile

/-!
# The table of file locks is a map of locks by byte

While no finite range reaches the last byte of the 64-bit offsets, and no merged end is
changed by the `int` it passes through, the table represents, for each owner and each
byte, at most one lock, and its operations are those of a `LockMap`.
-/

namespace CephDokan.Mds

open List FileLock

variable {start last : ℕ}

namespace FileLock

variable {l r : FileLock}

/-- What `ceph_filelock_owner_equal` compares: newer clients set the top bit of `owner` and
the process does not count. -/
def key (l : FileLock) : ℕ × ℕ × Option ℕ :=
  (l.client, l.owner, if l.owner.testBit 63 then none else some l.pid)

theorem ownerEqual_iff : ownerEqual l r ↔ l.key = r.key := by
  unfold ownerEqual key
  by_cases hclient : l.client = r.client
  · by_cases howner : l.owner = r.owner
    · by_cases hbit : r.owner.testBit 63 <;> simp [hclient, howner, hbit]
    · simp [howner]
  · simp [hclient]

def bytes (l : FileLock) : Set ℕ := {b | l.start ≤ b ∧ (l.length = 0 ∨ b < l.start + l.length)}

instance {b : ℕ} : Decidable (b ∈ l.bytes) := inferInstanceAs (Decidable (_ ∧ _))

theorem mem_bytes {b : ℕ} : b ∈ l.bytes ↔ l.start ≤ b ∧ (l.length = 0 ∨ b < l.start + l.length) :=
  Iff.rfl

/-- The range ends before the last of the 64-bit offsets, or has no end. -/
def InRange (l : FileLock) : Prop :=
  l.start < 2 ^ 64 ∧ (l.length = 0 ∨ l.start + l.length < 2 ^ 64)

def Overlaps (l r : FileLock) : Prop :=
  (l.length = 0 ∨ r.start < l.start + l.length) ∧ (r.length = 0 ∨ l.start < r.start + r.length)

instance : Decidable (l.Overlaps r) := inferInstanceAs (Decidable (_ ∧ _))

theorem overlaps_iff : l.Overlaps r ↔ ∃ b, b ∈ l.bytes ∧ b ∈ r.bytes := by
  simp only [mem_bytes, Overlaps]
  constructor
  · intro h
    exact ⟨max l.start r.start, by omega⟩
  · rintro ⟨b, hl, hr⟩
    omega

def Adjoins (l r : FileLock) : Prop :=
  l.length ≠ 0 ∧ l.start + l.length = r.start ∨ r.length ≠ 0 ∧ r.start + r.length = l.start

theorem Adjoins.not_overlaps (h : l.Adjoins r) : ¬l.Overlaps r := by
  unfold Adjoins at h
  unfold Overlaps
  omega

theorem lastByte_eq (hl : l.InRange) (hlen : l.length ≠ 0) :
    l.lastByte = l.start + l.length - 1 := by
  unfold InRange at hl
  unfold lastByte sub64 u64
  omega

theorem shareSpaceWith_iff (hl : l.InRange) :
    l.shareSpaceWith start last ↔ start ≤ l.start ∧ l.start ≤ last ∨
      l.start < start ∧ (l.length = 0 ∨ start < l.start + l.length) := by
  have hlast := lastByte_eq hl
  rw [shareSpaceWith, decide_eq_true_eq]
  by_cases hlen : l.length = 0
  · simp [hlen]
  · omega

theorem shareSpace_iff (hl : l.InRange) (hr : r.InRange) : l.shareSpace r ↔ l.Overlaps r := by
  rw [shareSpace, shareSpaceWith_iff hl]
  unfold InRange at hl hr
  unfold Overlaps shareEnd u64
  by_cases hlen : r.length = 0
  · rw [if_neg (by simpa using hlen)]
    omega
  · rw [if_pos hlen]
    omega

theorem neighborCheck_start : l.neighborCheck.start = l.start - 1 := by
  unfold neighborCheck
  by_cases h : l.start = 0
  · simp [h]
  · simp [h]

theorem neighborCheck_shareEnd (hl : l.InRange) :
    l.neighborCheck.shareEnd = if l.length = 0 then 2 ^ 64 - 1 else l.start + l.length := by
  unfold InRange at hl
  by_cases hstart : l.start = 0 <;> by_cases hlen : l.length = 0 <;>
    simp only [neighborCheck, shareEnd, u64, hstart, hlen, ne_eq, not_true_eq_false,
      not_false_eq_true, if_true, if_false]
  -- the longer range may wrap to one without end
  all_goals split_ifs <;> omega

/-- What shares space with the lock that is one byte longer at both ends. -/
theorem shareSpace_neighborCheck (hl : l.InRange) (hr : r.InRange) (hno : ¬l.Overlaps r) :
    l.shareSpace r.neighborCheck ↔ l.Adjoins r := by
  rw [shareSpace, shareSpaceWith_iff hl, neighborCheck_start, neighborCheck_shareEnd hr]
  unfold InRange at hl hr
  unfold Overlaps at hno
  unfold Adjoins
  split_ifs <;> omega

theorem neighborCheck_key : l.neighborCheck.key = l.key := by
  unfold neighborCheck key
  split_ifs <;> rfl

/-- Locks of one owner are apart, and locks of two owners that overlap are shared. -/
def Compatible (l r : FileLock) : Prop :=
  l.Overlaps r → l.key ≠ r.key ∧ l.type = .shared ∧ r.type = .shared

theorem Compatible.symm (h : l.Compatible r) : r.Compatible l := by
  intro hover
  have hover' : l.Overlaps r := ⟨hover.2, hover.1⟩
  obtain ⟨hkey, hl, hr⟩ := h hover'
  exact ⟨hkey.symm, hr, hl⟩

end FileLock

namespace LockState

variable {s : LockState} {e x : Held} {lock : FileLock}

/-! ### The order of the table -/

/-- The table is in the order of the starts, and each entry has a name of its own. -/
structure Ordered (s : LockState) : Prop where
  names : s.heldLocks.Pairwise fun e e' => e.id ≠ e'.id
  fresh : ∀ e ∈ s.heldLocks, e.id < s.nextId
  starts : s.heldLocks.Pairwise fun e e' => e.lock.start ≤ e'.lock.start

theorem Ordered.id_eq_iff (h : s.Ordered) (he : e ∈ s.heldLocks) (hx : x ∈ s.heldLocks) :
    e.id = x.id ↔ e = x := by
  have : Std.Symm fun e e' : Held => e.id ≠ e'.id := ⟨fun _ _ hne => hne.symm⟩
  refine ⟨fun hid => ?_, congrArg Held.id⟩
  by_contra hne
  exact h.names.forall he hx hne hid

variable {b : ℕ} {range : FileLock} {o : ℕ × ℕ × Option ℕ} {t : LockMode}

theorem Ordered.lt_of_mem_dropWhile (h : s.Ordered)
    (hx : x ∈ s.heldLocks.dropWhile fun e => e.lock.start ≤ b) : b < x.lock.start := by
  have hsorted := h.starts.sublist (dropWhile_sublist fun e => e.lock.start ≤ b)
  cases hdrop : s.heldLocks.dropWhile fun e => e.lock.start ≤ b with
  | nil => simp [hdrop] at hx
  | cons y rest =>
    have hy : b < y.lock.start := by
      have hhead := head_dropWhile_not (fun e : Held => decide (e.lock.start ≤ b))
        (l := s.heldLocks) (by simp [hdrop])
      simpa [hdrop] using hhead
    rw [hdrop] at hx hsorted
    rcases mem_cons.mp hx with rfl | hx
    · exact hy
    · exact lt_of_lt_of_le hy (rel_of_pairwise_cons hsorted hx)

theorem insertHeld_perm (s : LockState) (lock : FileLock) :
    (s.insertHeld lock).heldLocks.Perm (⟨s.nextId, lock⟩ :: s.heldLocks) := by
  apply perm_middle.trans
  rw [takeWhile_append_dropWhile]

theorem mem_insertHeld :
    x ∈ (s.insertHeld lock).heldLocks ↔ x = ⟨s.nextId, lock⟩ ∨ x ∈ s.heldLocks := by
  rw [(insertHeld_perm s lock).mem_iff, mem_cons]

section

variable (h : s.Ordered)

include h

theorem Ordered.insertHeld (lock : FileLock) : (s.insertHeld lock).Ordered := by
  refine ⟨?_, ?_, ?_⟩
  · rw [(insertHeld_perm s lock).pairwise_iff (fun hne => hne.symm), pairwise_cons]
    exact ⟨fun e he => (h.fresh e he).ne', h.names⟩
  · intro e he
    rcases mem_insertHeld.mp he with rfl | he
    · exact Nat.lt_succ_self _
    · exact Nat.lt_succ_of_lt (h.fresh e he)
  · have htake : ∀ e ∈ s.heldLocks.takeWhile (fun e => e.lock.start ≤ lock.start),
        e.lock.start ≤ lock.start := fun e he => by simpa using mem_takeWhile_imp he
    have hdrop : ∀ e ∈ s.heldLocks.dropWhile (fun e => e.lock.start ≤ lock.start),
        lock.start < e.lock.start := fun e he => h.lt_of_mem_dropWhile he
    rw [LockState.insertHeld, pairwise_append, pairwise_cons]
    refine ⟨h.starts.sublist (takeWhile_sublist _), ⟨fun e he => (hdrop e he).le,
      h.starts.sublist (dropWhile_sublist _)⟩, ?_⟩
    intro e he e' he'
    rcases mem_cons.mp he' with rfl | he'
    · exact htake e he
    · exact (htake e he).trans (hdrop e' he').le

theorem Ordered.mem_eraseHeld (he : e ∈ s.heldLocks) :
    x ∈ (s.eraseHeld e).heldLocks ↔ x ∈ s.heldLocks ∧ x ≠ e := by
  simp only [LockState.eraseHeld, mem_filter, decide_eq_true_eq]
  exact and_congr_right fun hx => not_congr (h.id_eq_iff hx he)

theorem Ordered.eraseHeld (e : Held) : (s.eraseHeld e).Ordered :=
  ⟨h.names.filter _, fun x hx => h.fresh x (mem_of_mem_filter hx), h.starts.filter _⟩

theorem mem_setLength (he : e ∈ s.heldLocks) {length : ℕ} : x ∈ (s.setLength e length).heldLocks ↔
      x ∈ s.heldLocks ∧ x ≠ e ∨ x = ⟨e.id, { e.lock with length := length }⟩ := by
  simp only [setLength, mem_map]
  constructor
  · rintro ⟨y, hy, rfl⟩
    split_ifs with hid
    · right
      rw [(h.id_eq_iff hy he).mp hid]
    · exact .inl ⟨hy, fun heq => hid (congrArg Held.id heq)⟩
  · rintro (⟨hx, hne⟩ | rfl)
    · exact ⟨x, hx, if_neg ((h.id_eq_iff hx he).not.mpr hne)⟩
    · exact ⟨e, he, if_pos rfl⟩

theorem Ordered.setLength (e : Held) (length : ℕ) : (s.setLength e length).Ordered := by
  refine ⟨?_, ?_, ?_⟩
  · apply h.names.map
    intro a b hab
    split_ifs <;> exact hab
  · intro x hx
    obtain ⟨y, hy, rfl⟩ := mem_map.mp hx
    have := h.fresh y hy
    split_ifs <;> exact this
  · apply h.starts.map
    intro a b hab
    split_ifs <;> exact hab

end

/-! ### The search for locks that overlap -/

/-- The table has valid ranges, and its locks are compatible. -/
structure Wf (s : LockState) : Prop where
  ordered : s.Ordered
  range : ∀ e ∈ s.heldLocks, e.lock.InRange
  compatible : ∀ e ∈ s.heldLocks, ∀ x ∈ s.heldLocks, e ≠ x → e.lock.Compatible x.lock

/-- The entries that the loop of `get_overlapping_locks` looks at. -/
def scanned (lock : FileLock) : List Held → List Held
  | [] => []
  | iter :: rest =>
    if iter.lock.start < lock.start ∧ iter.lock.type = .excl then [iter]
    else iter :: scanned lock rest

def isNeighbor (lock : FileLock) (iter : Held) : Bool :=
  !iter.lock.shareSpace lock && ownerEqual lock.neighborCheck iter.lock &&
    iter.lock.shareSpace lock.neighborCheck

theorem overlapLoop_eq (lock : FileLock) (held overlaps neighbors : List Held) :
    overlapLoop lock held overlaps neighbors =
      (((scanned lock held).filter fun e => e.lock.shareSpace lock).reverse ++ overlaps,
        ((scanned lock held).filter (isNeighbor lock)).reverse ++ neighbors) := by
  induction held generalizing overlaps neighbors with
  | nil => rfl
  | cons iter rest ih =>
    rw [overlapLoop, scanned]
    simp only [ih]
    unfold isNeighbor
    split_ifs <;> simp_all

theorem getOverlappingLocks_eq (s : LockState) (lock : FileLock) : s.getOverlappingLocks lock =
      (((scanned lock (getLastBefore lock.endpoint s.heldLocks)).filter
          fun e => e.lock.shareSpace lock).reverse,
        ((scanned lock (getLastBefore lock.endpoint s.heldLocks)).filter
          (isNeighbor lock)).reverse) := by
  simp [getOverlappingLocks, overlapLoop_eq]

theorem scanned_sublist (lock : FileLock) (held : List Held) :
    (scanned lock held).Sublist held := by
  induction held with
  | nil => exact List.Sublist.refl _
  | cons iter rest ih =>
    unfold scanned
    split_ifs
    · exact (nil_sublist rest).cons_cons iter
    · exact ih.cons_cons iter

/-- Left of an exclusive lock that starts before the new one, all ends before the new one. -/
theorem exists_scanned_append {held}
    (hstarts : held.Pairwise fun e e' => e'.lock.start ≤ e.lock.start)
    (hcompat : held.Pairwise fun e e' => e.lock.Compatible e'.lock) (lock : FileLock) :
    ∃ rest, held = scanned lock held ++ rest ∧
      ∀ x ∈ rest, x.lock.length ≠ 0 ∧ x.lock.start + x.lock.length < lock.start := by
  induction held with
  | nil => exact ⟨[], rfl, by simp⟩
  | cons iter held ih =>
    obtain ⟨hle, hstarts⟩ := pairwise_cons.mp hstarts
    obtain ⟨hapart, hcompat⟩ := pairwise_cons.mp hcompat
    unfold scanned
    split_ifs with hstop
    · refine ⟨held, rfl, fun x hx => ?_⟩
      have hapart := hapart x hx
      have hle := hle x hx
      simp only [Compatible, Overlaps, hstop.2, reduceCtorEq, false_and, and_false,
        imp_false] at hapart
      omega
    · obtain ⟨rest, hheld, hrest⟩ := ih hstarts hcompat
      exact ⟨rest, congrArg (iter :: ·) hheld, hrest⟩

theorem Wf.pairwise_compatible (h : s.Wf) :
    s.heldLocks.Pairwise fun e e' => e.lock.Compatible e'.lock := by
  apply List.Pairwise.imp_of_mem _ h.ordered.names
  intro e e' he he' hid
  exact h.compatible e he e' he' (fun heq => hid (congrArg Held.id heq))

theorem getLastBefore_sublist (last : ℕ) (held : List Held) :
    (getLastBefore last held).Sublist held.reverse := by
  unfold getLastBefore
  split
  · cases held with
    | nil => exact List.Sublist.refl _
    | cons e rest => simp
  · exact (takeWhile_sublist _).reverse

theorem Wf.exists_scanned (h : s.Wf) (lock : FileLock) :
    ∃ rest, getLastBefore lock.endpoint s.heldLocks =
        scanned lock (getLastBefore lock.endpoint s.heldLocks) ++ rest ∧
      ∀ x ∈ rest, x.lock.length ≠ 0 ∧ x.lock.start + x.lock.length < lock.start := by
  have hsub := getLastBefore_sublist lock.endpoint s.heldLocks
  apply exists_scanned_append
  · exact (pairwise_reverse.mpr h.ordered.starts).sublist hsub
  · apply List.Pairwise.sublist hsub
    rw [pairwise_reverse]
    exact h.pairwise_compatible.imp Compatible.symm

theorem scanned_getLastBefore_sublist (lock : FileLock) (last : ℕ) (held : List Held) :
    (scanned lock (getLastBefore last held)).Sublist held.reverse :=
  (scanned_sublist _ _).trans (getLastBefore_sublist _ _)

theorem mem_of_scanned (hx : x ∈ scanned lock (getLastBefore last s.heldLocks)) : x ∈ s.heldLocks :=
  mem_reverse.mp ((scanned_getLastBefore_sublist _ _ _).subset hx)

theorem Ordered.mem_getLastBefore (h : s.Ordered) (hx : x ∈ s.heldLocks) (hle : x.lock.start ≤ b) :
    x ∈ getLastBefore b s.heldLocks := by
  have htake : x ∈ (s.heldLocks.takeWhile fun e => e.lock.start ≤ b).reverse := by
    rw [← takeWhile_append_dropWhile (p := fun e : Held => decide (e.lock.start ≤ b))
      (l := s.heldLocks), mem_append] at hx
    exact mem_reverse.mpr (hx.resolve_right fun hx => absurd (h.lt_of_mem_dropWhile hx) (by omega))
  unfold getLastBefore
  split
  · rename_i hnil
    rw [hnil] at htake
    cases htake
  · exact htake

section

variable (h : s.Wf) (hlock : lock.InRange)

include h hlock

theorem Wf.not_overlaps_behind (he : e ∈ s.heldLocks) (hlt : lock.endpoint < e.lock.start) :
    ¬e.lock.Overlaps lock := by
  have hrange := h.range e he
  unfold InRange at hrange hlock
  unfold endpoint u64 at hlt
  unfold Overlaps
  split_ifs at hlt with hlen <;> omega

theorem Wf.filter_takeWhile : ((s.heldLocks.takeWhile fun e => e.lock.start ≤ lock.endpoint).filter
      fun e => e.lock.Overlaps lock) = s.heldLocks.filter fun e => e.lock.Overlaps lock := by
  have hdrop : (s.heldLocks.dropWhile fun e => e.lock.start ≤ lock.endpoint).filter
      (fun e => e.lock.Overlaps lock) = [] := by
    rw [filter_eq_nil_iff]
    intro e he
    have hno := h.not_overlaps_behind hlock ((dropWhile_sublist _).subset he)
      (h.ordered.lt_of_mem_dropWhile he)
    simpa using hno
  conv_rhs => rw [← takeWhile_append_dropWhile (p := fun e : Held =>
    decide (e.lock.start ≤ lock.endpoint)) (l := s.heldLocks)]
  rw [filter_append, hdrop, append_nil]

theorem getOverlappingLocks_fst :
    (s.getOverlappingLocks lock).1 = s.heldLocks.filter fun e => e.lock.Overlaps lock := by
  obtain ⟨rest, heq, hrest⟩ := h.exists_scanned lock
  have hshare : ((scanned lock (getLastBefore lock.endpoint s.heldLocks)).filter
      fun e => e.lock.shareSpace lock) =
      (getLastBefore lock.endpoint s.heldLocks).filter fun e => e.lock.Overlaps lock := by
    have hnil : rest.filter (fun e => e.lock.Overlaps lock) = [] := by
      rw [filter_eq_nil_iff]
      intro x hx
      have hx := hrest x hx
      rw [decide_eq_true_iff, Overlaps]
      omega
    conv_rhs => rw [heq, filter_append, hnil, append_nil]
    apply filter_congr
    intro e he
    rw [Bool.eq_iff_iff, shareSpace_iff (h.range e (mem_of_scanned he)) hlock, decide_eq_true_eq]
  rw [getOverlappingLocks_eq, hshare, ← filter_reverse, ← h.filter_takeWhile hlock]
  unfold getLastBefore
  split
  · rename_i hnil
    rw [reverse_eq_nil_iff] at hnil
    have hnone := h.filter_takeWhile hlock
    rw [hnil, filter_nil] at hnone ⊢
    rw [filter_eq_nil_iff]
    intro e he
    have he := (take_sublist _ _).subset (mem_reverse.mp he)
    exact filter_eq_nil_iff.mp hnone.symm e he
  · rw [reverse_reverse]

theorem isNeighbor_iff (hx : x ∈ s.heldLocks) :
    isNeighbor lock x ↔ x.lock.key = lock.key ∧ x.lock.Adjoins lock := by
  have hrange := h.range x hx
  simp only [isNeighbor, Bool.and_eq_true, Bool.not_eq_true', ← Bool.not_eq_true,
    shareSpace_iff hrange hlock, ownerEqual_iff, neighborCheck_key]
  constructor
  · rintro ⟨⟨hno, hkey⟩, hshare⟩
    exact ⟨hkey.symm, (shareSpace_neighborCheck hrange hlock hno).mp hshare⟩
  · rintro ⟨hkey, hadj⟩
    have hno := hadj.not_overlaps
    exact ⟨⟨hno, hkey.symm⟩, (shareSpace_neighborCheck hrange hlock hno).mpr hadj⟩

/-- The neighbors are the locks of the same owner that end or start where the new one starts
or ends. -/
theorem mem_getOverlappingLocks_snd : x ∈ (s.getOverlappingLocks lock).2 ↔
    x ∈ s.heldLocks ∧ x.lock.key = lock.key ∧ x.lock.Adjoins lock := by
  rw [getOverlappingLocks_eq, mem_reverse, mem_filter]
  constructor
  · rintro ⟨hscan, hneighbor⟩
    have hx := mem_of_scanned hscan
    exact ⟨hx, (isNeighbor_iff h hlock hx).mp hneighbor⟩
  · rintro ⟨hx, hown⟩
    refine ⟨?_, (isNeighbor_iff h hlock hx).mpr hown⟩
    have hadj := hown.2
    unfold Adjoins at hadj
    have hle : x.lock.start ≤ lock.endpoint := by
      have hrange := h.range x hx
      unfold InRange at hlock hrange
      unfold endpoint u64
      split_ifs <;> omega
    have hmem := h.ordered.mem_getLastBefore hx hle
    obtain ⟨rest, heq, hrest⟩ := h.exists_scanned lock
    rw [heq, mem_append] at hmem
    exact hmem.resolve_right fun hx => absurd (hrest x hx) (by omega)

end

theorem Wf.heldLocks_nodup (h : s.Wf) : s.heldLocks.Nodup :=
  h.ordered.names.imp fun hid heq => hid (congrArg Held.id heq)

theorem getOverlappingLocks_snd_nodup (h : s.Wf) (lock : FileLock) :
    (s.getOverlappingLocks lock).2.Nodup := by
  rw [getOverlappingLocks_eq, nodup_reverse]
  apply List.Nodup.sublist (filter_sublist.trans (scanned_getLastBefore_sublist _ _ _))
  exact nodup_reverse.mpr h.heldLocks_nodup

/-! ### Cutting a range out of a lock -/

theorem mem_trimBefore (h : s.Ordered) (he : e ∈ s.heldLocks) (hstart : start < 2 ^ 64) :
    x ∈ (s.trimBefore e start).heldLocks ↔ x ∈ s.heldLocks ∧ x ≠ e ∨
      e.lock.start < start ∧ x = ⟨e.id, { e.lock with length := start - e.lock.start }⟩ := by
  unfold trimBefore
  split_ifs with hlt
  · rw [mem_setLength h he, sub64_of_le hlt.le hstart]
    simp [hlt]
  · rw [h.mem_eraseHeld he]
    simp [hlt]

theorem Ordered.trimBefore (h : s.Ordered) (e : Held) (start : ℕ) :
    (s.trimBefore e start).Ordered := by
  unfold LockState.trimBefore
  split_ifs
  · exact h.setLength e _
  · exact h.eraseHeld e

theorem Ordered.cutOut (h : s.Ordered) (toEnd : Bool) (e : Held) (range : FileLock) :
    (s.cutOut toEnd e range).Ordered := by
  unfold LockState.cutOut
  split_ifs
  · exact h.trimBefore e _
  · exact (h.insertHeld _).trimBefore e _
  · exact (h.insertHeld _).trimBefore e _
  · exact h.trimBefore e _

def behind (l range : FileLock) : FileLock :=
  { l with
    start := range.start + range.length
    length := if l.length = 0 then 0 else l.start + l.length - (range.start + range.length) }

def Continues (l range : FileLock) : Prop :=
  range.length ≠ 0 ∧ (l.length = 0 ∨ range.start + range.length < l.start + l.length)

theorem mem_cutOut (h : s.Ordered) (he : e ∈ s.heldLocks)
    (hrange : range.InRange) (hlock : e.lock.InRange) :
    x ∈ (s.cutOut (decide (range.length = 0)) e range).heldLocks ↔ x ∈ s.heldLocks ∧ x ≠ e ∨
      (e.lock.start < range.start ∧
        x = ⟨e.id, { e.lock with length := range.start - e.lock.start }⟩) ∨
      Continues e.lock range ∧ x = ⟨s.nextId, behind e.lock range⟩ := by
  have hne : s.nextId ≠ e.id := (h.fresh e he).ne'
  unfold cutOut
  by_cases hend : range.length = 0
  · rw [if_pos (by simpa using hend), mem_trimBefore h he hrange.1]
    simp [Continues, hend]
  have hlast := lastByte_eq hrange hend
  have hafter : u64 (range.lastByte + 1) = range.start + range.length := by
    unfold InRange at hrange
    unfold u64
    omega
  rw [if_neg (by simpa using hend), hafter]
  by_cases hlen : e.lock.length = 0
  · rw [if_pos hlen, mem_trimBefore (h.insertHeld _) (mem_insertHeld.mpr (.inr he)) hrange.1,
      mem_insertHeld]
    have hpiece : behind e.lock range =
        { e.lock with start := range.start + range.length } := by simp [behind, hlen]
    have hcont : Continues e.lock range := ⟨hend, .inl hlen⟩
    grind
  rw [if_neg hlen]
  have hlast' := lastByte_eq hlock hlen
  by_cases hmore : range.lastByte < e.lock.lastByte
  · have hcont : Continues e.lock range := ⟨hend, .inr (by omega)⟩
    have hlength : u64 (sub64 e.lock.lastByte (range.start + range.length) + 1) =
        e.lock.start + e.lock.length - (range.start + range.length) := by
      unfold InRange at hlock hrange
      rw [sub64_of_le (by omega) (by omega), u64_of_lt (by omega)]
      omega
    simp only [if_pos hmore, hlength]
    have hpiece : behind e.lock range =
        { e.lock with
          start := range.start + range.length
          length := e.lock.start + e.lock.length - (range.start + range.length) } := by
      simp [behind, hlen]
    rw [mem_trimBefore (h.insertHeld _) (mem_insertHeld.mpr (.inr he)) hrange.1, mem_insertHeld,
      hpiece]
    grind
  · have hcont : ¬Continues e.lock range := by
      unfold Continues
      omega
    simp only [if_neg hmore, mem_trimBefore h he hrange.1, hcont, false_and, or_false]

/-! ### The lock at each byte -/

def Holds (s : LockState) (o : ℕ × ℕ × Option ℕ) (b : ℕ) (t : LockMode) : Prop :=
  ∃ e ∈ s.heldLocks, e.lock.key = o ∧ b ∈ e.lock.bytes ∧ e.lock.type = t

def locks (s : LockState) : LockMap (ℕ × ℕ × Option ℕ) ℕ := fun o b =>
  (s.heldLocks.find? fun e => e.lock.key = o ∧ b ∈ e.lock.bytes).map fun e => e.lock.type

theorem Wf.eq_of_mem_bytes (h : s.Wf) (he : e ∈ s.heldLocks) (hx : x ∈ s.heldLocks)
    (hkey : e.lock.key = x.lock.key) (hb : b ∈ e.lock.bytes) (hb' : b ∈ x.lock.bytes) : e = x := by
  by_contra hne
  exact (h.compatible e he x hx hne (overlaps_iff.mpr ⟨b, hb, hb'⟩)).1 hkey

theorem Wf.locks_eq_some (h : s.Wf) : s.locks o b = some t ↔ s.Holds o b t := by
  unfold locks Holds
  rw [Option.map_eq_some_iff]
  constructor
  · rintro ⟨e, hfind, rfl⟩
    have hspec := find?_some hfind
    rw [decide_eq_true_eq] at hspec
    exact ⟨e, mem_of_find?_eq_some hfind, hspec.1, hspec.2, rfl⟩
  · rintro ⟨e, he, rfl, hb, rfl⟩
    cases hfind : s.heldLocks.find? fun x => x.lock.key = e.lock.key ∧ b ∈ x.lock.bytes with
    | none =>
      rw [find?_eq_none] at hfind
      exact absurd (decide_eq_true ⟨rfl, hb⟩) (hfind e he)
    | some x =>
      have hspec := find?_some hfind
      rw [decide_eq_true_eq] at hspec
      have heq := h.eq_of_mem_bytes (mem_of_find?_eq_some hfind) he hspec.1 hspec.2 hb
      exact ⟨x, rfl, by rw [heq]⟩

/-- What cutting a range out of a lock does to the table. -/
structure CutFrom (s s' : LockState) (e : Held) (range : FileLock) : Prop where
  wf : s'.Wf
  kept : ∀ x ∈ s.heldLocks, x ≠ e → x ∈ s'.heldLocks
  pieces : ∀ x ∈ s'.heldLocks, x ∈ s.heldLocks ∧ x ≠ e ∨ x.lock.key = e.lock.key ∧
    x.lock.type = e.lock.type ∧ ∀ b ∈ x.lock.bytes, b ∈ e.lock.bytes ∧ b ∉ range.bytes
  remains : ∀ b ∈ e.lock.bytes, b ∉ range.bytes → ∃ x ∈ s'.heldLocks, x.lock.key = e.lock.key ∧
    x.lock.type = e.lock.type ∧ b ∈ x.lock.bytes

variable {l : FileLock}

theorem mem_bytes_front (hover : l.Overlaps range) (hlt : l.start < range.start) :
    b ∈ ({ l with length := range.start - l.start } : FileLock).bytes ↔
      b ∈ l.bytes ∧ b < range.start := by
  simp only [mem_bytes]
  unfold Overlaps at hover
  omega

theorem mem_bytes_behind (hover : l.Overlaps range) (hcont : Continues l range) :
    b ∈ (behind l range).bytes ↔ b ∈ l.bytes ∧ range.start + range.length ≤ b := by
  simp only [mem_bytes, behind]
  unfold Overlaps at hover
  unfold Continues at hcont
  split_ifs <;> omega

theorem cutFrom (h : s.Wf) (he : e ∈ s.heldLocks) (hrange : range.InRange)
    (hover : e.lock.Overlaps range) :
    CutFrom s (s.cutOut (decide (range.length = 0)) e range) e range := by
  have hlock := h.range e he
  have hmem (x : Held) := mem_cutOut (x := x) h.ordered he hrange hlock
  have hpieces : ∀ x ∈ (s.cutOut (decide (range.length = 0)) e range).heldLocks,
      x ∈ s.heldLocks ∧ x ≠ e ∨ x.lock.key = e.lock.key ∧ x.lock.type = e.lock.type ∧
        ∀ b ∈ x.lock.bytes, b ∈ e.lock.bytes ∧ b ∉ range.bytes := by
    intro x hx
    rcases (hmem x).mp hx with hold | ⟨hlt, rfl⟩ | ⟨hcont, rfl⟩
    · exact .inl hold
    · refine .inr ⟨rfl, rfl, fun b hb => ?_⟩
      obtain ⟨hb, hlt'⟩ := (mem_bytes_front hover hlt).mp hb
      exact ⟨hb, fun hr => absurd hr.1 (by omega)⟩
    · refine .inr ⟨rfl, rfl, fun b hb => ?_⟩
      obtain ⟨hb, hle⟩ := (mem_bytes_behind hover hcont).mp hb
      have hlen := hcont.1
      exact ⟨hb, fun hr => by rw [mem_bytes] at hr; omega⟩
  refine ⟨⟨h.ordered.cutOut _ e range, ?_, ?_⟩, ?_, hpieces, ?_⟩
  · intro x hx
    rcases (hmem x).mp hx with ⟨hold, -⟩ | ⟨hlt, rfl⟩ | ⟨hcont, rfl⟩
    · exact h.range x hold
    · unfold InRange at hrange hlock ⊢
      simp only
      omega
    · unfold InRange at hrange hlock ⊢
      simp only [behind]
      split_ifs <;> omega
  · intro x hx y hy hne hxy
    obtain ⟨b, hbx, hby⟩ := overlaps_iff.mp hxy
    by_cases hxold : x ∈ s.heldLocks ∧ x ≠ e
    · rcases hpieces y hy with ⟨hy', -⟩ | ⟨hky, hty, hsuby⟩
      · exact h.compatible x hxold.1 y hy' hne hxy
      · have hxe := h.compatible x hxold.1 e he hxold.2
          (overlaps_iff.mpr ⟨b, hbx, (hsuby b hby).1⟩)
        rwa [hky, hty]
    · obtain ⟨hkx, htx, hsubx⟩ := (hpieces x hx).resolve_left hxold
      by_cases hyold : y ∈ s.heldLocks ∧ y ≠ e
      · have hey := h.compatible e he y hyold.1 hyold.2.symm
          (overlaps_iff.mpr ⟨b, (hsubx b hbx).1, hby⟩)
        rwa [hkx, htx]
      · -- one part is in front of the range, the other behind it
        exfalso
        rcases ((hmem x).mp hx).resolve_left hxold with ⟨hltx, rfl⟩ | ⟨hcontx, rfl⟩ <;>
          rcases ((hmem y).mp hy).resolve_left hyold with ⟨hlty, rfl⟩ | ⟨hconty, rfl⟩
        · exact hne rfl
        · have := ((mem_bytes_front hover hltx).mp hbx).2
          have := ((mem_bytes_behind hover hconty).mp hby).2
          omega
        · have := ((mem_bytes_behind hover hcontx).mp hbx).2
          have := ((mem_bytes_front hover hlty).mp hby).2
          omega
        · exact hne rfl
  · intro x hx hne
    exact (hmem x).mpr (.inl ⟨hx, hne⟩)
  · intro b hb hno
    by_cases hlt : b < range.start
    · have hlt' : e.lock.start < range.start := lt_of_le_of_lt hb.1 hlt
      exact ⟨_, (hmem _).mpr (.inr (.inl ⟨hlt', rfl⟩)), rfl, rfl,
        (mem_bytes_front hover hlt').mpr ⟨hb, hlt⟩⟩
    · have hcont : Continues e.lock range := by
        rw [mem_bytes] at hb hno
        unfold Continues
        omega
      have hle : range.start + range.length ≤ b := by
        rw [mem_bytes] at hno
        omega
      exact ⟨_, (hmem _).mpr (.inr (.inr ⟨hcont, rfl⟩)), rfl, rfl,
        (mem_bytes_behind hover hcont).mpr ⟨hb, hle⟩⟩

variable {s' : LockState}

theorem CutFrom.holds_iff (hcut : CutFrom s s' e range) (h : s.Wf) (he : e ∈ s.heldLocks) :
    s'.Holds o b t ↔ s.Holds o b t ∧ ¬(o = e.lock.key ∧ b ∈ e.lock.bytes ∧ b ∈ range.bytes) := by
  constructor
  · rintro ⟨x, hx, rfl, hb, rfl⟩
    rcases hcut.pieces x hx with ⟨hold, hne⟩ | ⟨hkey, htype, hsub⟩
    · refine ⟨⟨x, hold, rfl, hb, rfl⟩, fun hboth => hne ?_⟩
      exact h.eq_of_mem_bytes hold he hboth.1 hb hboth.2.1
    · obtain ⟨hbe, hbr⟩ := hsub b hb
      exact ⟨⟨e, he, hkey.symm, hbe, htype.symm⟩, fun hboth => hbr hboth.2.2⟩
  · rintro ⟨⟨x, hx, rfl, hb, rfl⟩, hno⟩
    by_cases hxe : x = e
    · subst hxe
      obtain ⟨y, hy, hkey, htype, hby⟩ := hcut.remains b hb fun hbr => hno ⟨rfl, hb, hbr⟩
      exact ⟨y, hy, hkey, hby, htype⟩
    · exact ⟨x, hcut.kept x hx hxe, rfl, hb, rfl⟩

/-! ### `remove_lock` -/

/-- The owner's locks that overlap a range are among those still to be cut. -/
structure Removing (s0 : LockState) (r : FileLock) (rest : List Held) (s : LockState) : Prop where
  wf : s.Wf
  mem : ∀ e ∈ rest, e ∈ s.heldLocks ∧ e.lock.key = r.key ∧ e.lock.Overlaps r
  nodup : rest.Nodup
  own : ∀ e ∈ s.heldLocks, e.lock.key = r.key → e.lock.Overlaps r → e ∈ rest
  meaning : ∀ o b t, ¬(o = r.key ∧ b ∈ r.bytes) → (s.Holds o b t ↔ s0.Holds o b t)

section

variable {s0 s : LockState} {r : FileLock} {rest : List Held}

theorem Removing.step {e} (h : Removing s0 r (e :: rest) s) (hr : r.InRange) :
    Removing s0 r rest (s.cutOut (decide (r.length = 0)) e r) := by
  obtain ⟨he, hkey, hover⟩ := h.mem e mem_cons_self
  obtain ⟨hnot, hnodup⟩ := nodup_cons.mp h.nodup
  have hcut := cutFrom h.wf he hr hover
  refine ⟨hcut.wf, ?_, hnodup, ?_, ?_⟩
  · intro x hx
    obtain ⟨hx', hrest⟩ := h.mem x (mem_cons_of_mem _ hx)
    exact ⟨hcut.kept x hx' fun heq => hnot (heq ▸ hx), hrest⟩
  · intro x hx hkx hox
    rcases hcut.pieces x hx with ⟨hold, hne⟩ | ⟨-, -, hsub⟩
    · exact (mem_cons.mp (h.own x hold hkx hox)).resolve_left hne
    · obtain ⟨b, hb, hbr⟩ := overlaps_iff.mp hox
      exact absurd hbr (hsub b hb).2
  · intro o b t hno
    rw [hcut.holds_iff h.wf he, ← h.meaning o b t hno, hkey]
    exact and_iff_left fun hboth => hno ⟨hboth.1, hboth.2.2⟩

theorem Removing.run (h : Removing s0 r rest s) (hr : r.InRange) :
    Removing s0 r [] (rest.foldl (fun s e => s.cutOut (decide (r.length = 0)) e r) s) := by
  induction rest generalizing s with
  | nil => exact h
  | cons e rest ih => exact ih (h.step hr)

end

theorem removing_init (h : s.Wf) {r} (hr : r.InRange) :
    Removing s r (((s.getOverlappingLocks r).1).filter fun e => ownerEqual e.lock r) s := by
  rw [getOverlappingLocks_fst h hr]
  refine ⟨h, ?_, (h.heldLocks_nodup.filter _).filter _, ?_, fun _ _ _ _ => Iff.rfl⟩
  · intro e he
    simp only [mem_filter, decide_eq_true_eq, ownerEqual_iff] at he
    exact ⟨he.1.1, he.2, he.1.2⟩
  · intro e he hkey hover
    simp only [mem_filter, decide_eq_true_eq, ownerEqual_iff]
    exact ⟨⟨he, hover⟩, hkey⟩

theorem removeLock_spec (h : s.Wf) {r} (hr : r.InRange) :
    (s.removeLock r).Wf ∧ ∀ o b t, (s.removeLock r).Holds o b t ↔
      s.Holds o b t ∧ ¬(o = r.key ∧ b ∈ r.bytes) := by
  have hend := (removing_init h hr).run hr
  refine ⟨hend.wf, ?_⟩
  intro o b t
  by_cases hin : o = r.key ∧ b ∈ r.bytes
  · refine iff_of_false ?_ fun hheld => hheld.2 hin
    rintro ⟨e, he, rfl, hb, -⟩
    exact not_mem_nil (hend.own e he hin.1 (overlaps_iff.mpr ⟨b, hb, hin.2⟩))
  · rw [and_iff_left hin]
    exact hend.meaning o b t hin

/-! ### The new lock and the owner's old locks -/

/-- The map that has the new lock over the table is the one that is wanted, and the other
owners' locks leave room for the new one. -/
structure Inserting (s0 : LockState) (l : FileLock) (s : LockState) (new : FileLock) : Prop where
  wf : s.Wf
  range : new.InRange
  key : new.key = l.key
  type : new.type = l.type
  others : ∀ e ∈ s.heldLocks, e.lock.key ≠ l.key → e.lock.Overlaps new →
    e.lock.type = .shared ∧ l.type = .shared
  meaning : ∀ o b t,
    (o = l.key ∧ b ∈ new.bytes ∧ t = l.type ∨ ¬(o = l.key ∧ b ∈ new.bytes) ∧ s.Holds o b t) ↔
      (o = l.key ∧ b ∈ l.bytes ∧ t = l.type ∨ ¬(o = l.key ∧ b ∈ l.bytes) ∧ s0.Holds o b t)

theorem Wf.eraseHeld (h : s.Wf) (e : Held) : (s.eraseHeld e).Wf :=
  ⟨h.ordered.eraseHeld e, fun x hx => h.range x (mem_of_mem_filter hx),
    fun x hx y hy => h.compatible x (mem_of_mem_filter hx) y (mem_of_mem_filter hy)⟩

theorem cutFrom_eraseHeld (h : s.Wf) (he : e ∈ s.heldLocks) : CutFrom s (s.eraseHeld e) e e.lock :=
  ⟨h.eraseHeld e, fun _ hx hne => (h.ordered.mem_eraseHeld he).mpr ⟨hx, hne⟩,
    fun _ hx => .inl ((h.ordered.mem_eraseHeld he).mp hx), fun _ hb hno => absurd hb hno⟩

section Inserting

variable {s0 : LockState} {l new new' : FileLock}

/-- What overlaps the longer lock overlaps the lock or what it took in. -/
theorem overlaps_of_bytes {x : FileLock} (hbytes : ∀ b, b ∈ new'.bytes ↔ b ∈ new.bytes ∨
    b ∈ e.lock.bytes) (hover : x.Overlaps new') : x.Overlaps new ∨ x.Overlaps e.lock := by
  obtain ⟨b, hb, hb'⟩ := overlaps_iff.mp hover
  exact ((hbytes b).mp hb').imp (fun hn => overlaps_iff.mpr ⟨b, hb, hn⟩)
    fun he => overlaps_iff.mpr ⟨b, hb, he⟩

section

variable (h : Inserting s0 l s new) (he : e ∈ s.heldLocks) (hkey : e.lock.key = l.key)

include h he hkey

theorem Inserting.absorb (htype : e.lock.type = l.type) (hrange : new'.InRange)
    (hkey' : new'.key = l.key) (htype' : new'.type = l.type)
    (hbytes : ∀ b, b ∈ new'.bytes ↔ b ∈ new.bytes ∨ b ∈ e.lock.bytes) :
    Inserting s0 l (s.eraseHeld e) new' := by
  refine ⟨h.wf.eraseHeld e, hrange, hkey', htype', ?_, ?_⟩
  · intro x hx hne hover
    obtain ⟨hx, hxe⟩ := (h.wf.ordered.mem_eraseHeld he).mp hx
    rcases overlaps_of_bytes hbytes hover with hnew | hold
    · exact h.others x hx hne hnew
    · have hshared := h.wf.compatible x hx e he hxe hold
      exact ⟨hshared.2.1, htype ▸ hshared.2.2⟩
  · intro o b t
    rw [← h.meaning, (cutFrom_eraseHeld h.wf he).holds_iff h.wf he, and_self, hbytes, hkey]
    by_cases ho : o = l.key
    · by_cases hb : b ∈ e.lock.bytes
      · -- the old lock has the type of the new one
        have hholds : s.Holds o b t ↔ t = l.type := by
          constructor
          · rintro ⟨x, hx, hxo, hbx, rfl⟩
            rw [h.wf.eq_of_mem_bytes hx he (by rw [hxo, ho, hkey]) hbx hb, htype]
          · rintro rfl
            exact ⟨e, he, by rw [ho, hkey], hb, htype⟩
        subst ho
        by_cases hnew : b ∈ new.bytes <;> simp [hb, hnew, hholds]
      · simp [hb]
    · simp [ho]

theorem Inserting.cut {s'} (hcut : CutFrom s s' e new) : Inserting s0 l s' new := by
  refine ⟨hcut.wf, h.range, h.key, h.type, ?_, ?_⟩
  · intro x hx hne hover
    rcases hcut.pieces x hx with ⟨hold, -⟩ | ⟨hkx, -⟩
    · exact h.others x hold hne hover
    · exact absurd (hkx.trans hkey) hne
  · intro o b t
    rw [← h.meaning, hcut.holds_iff h.wf he, hkey]
    tauto

end

def hull (new old : FileLock) : FileLock :=
  { new with
    start := min old.start new.start
    length :=
      if new.length = 0 ∨ old.length = 0 then 0
      else max (old.start + old.length) (new.start + new.length) - min old.start new.start }

theorem mem_bytes_hull (new old : FileLock) (htouch : old.Overlaps new ∨ old.Adjoins new) (b : ℕ) :
    b ∈ (hull new old).bytes ↔ b ∈ new.bytes ∨ b ∈ old.bytes := by
  simp only [mem_bytes, hull]
  unfold Overlaps Adjoins at htouch
  split_ifs <;> omega

theorem hull_inRange {old} (hnew : new.InRange) (hold : old.InRange) : (hull new old).InRange := by
  unfold InRange hull at *
  simp only
  split_ifs <;> omega

/-- The value comes through an `int` unchanged. -/
def FitsInt (n : ℕ) : Prop := n < 2 ^ 31 ∨ 2 ^ 64 - 2 ^ 31 ≤ n ∧ n < 2 ^ 64

theorem intToU64_toInt32 {n : ℕ} (hn : FitsInt n) (hle : start ≤ n) (hlt : n < 2 ^ 64 - 1) :
    intToU64 (toInt32 n - start + 1) = n - start + 1 := by
  unfold FitsInt at hn
  unfold intToU64 toInt32
  omega

/-- The loops of `adjust_locks`: the owner's locks that overlap the new one are still to
come, and so are those that adjoin it and are to be merged. -/
structure Adjusting (s0 : LockState) (l : FileLock) (olds neighbors : List Held) (s : LockState)
    (new : FileLock) : Prop where
  core : Inserting s0 l s new
  toEnd : l.length = 0 → new.length = 0
  endless : l.length ≠ 0 → new.length = 0 → olds = []
  old : ∀ e ∈ olds, e ∈ s.heldLocks ∧ e.lock.key = l.key ∧ e.lock.Overlaps new
  starts : olds.Pairwise fun e e' => e ≠ e' ∧ e.lock.start ≤ e'.lock.start
  own : ∀ e ∈ s.heldLocks, e.lock.key = l.key → e.lock.Overlaps new → e ∈ olds
  fits : ∀ e ∈ olds, e.lock.type = l.type → e.lock.length ≠ 0 → new.length ≠ 0 →
    FitsInt (max e.lock.lastByte new.lastByte)
  neighbor : ∀ e ∈ neighbors, e ∈ s.heldLocks ∧ e.lock.key = l.key ∧ e.lock.Adjoins new
  nodup : neighbors.Nodup

theorem Wf.not_overlaps (h : s.Wf) (he : e ∈ s.heldLocks) (hx : x ∈ s.heldLocks) (hne : e ≠ x)
    (hkey : e.lock.key = x.lock.key) : ¬e.lock.Overlaps x.lock :=
  fun hover => (h.compatible e he x hx hne hover).1 hkey

variable {olds neighbors : List Held}

theorem Adjusting.absorb (h : Adjusting s0 l olds neighbors s new) (he : e ∈ s.heldLocks)
    (hkey : e.lock.key = l.key) (htype : e.lock.type = l.type)
    (htouch : e.lock.Overlaps new ∨ e.lock.Adjoins new) :
    Inserting s0 l (s.eraseHeld e) (hull new e.lock) ∧
    (l.length = 0 → (hull new e.lock).length = 0) ∧
    (∀ x ∈ (s.eraseHeld e).heldLocks, x.lock.key = l.key → x.lock.Overlaps (hull new e.lock) →
      x ∈ olds ∧ x ≠ e) ∧
    ∀ x ∈ neighbors, x ≠ e → x ∈ (s.eraseHeld e).heldLocks ∧ x.lock.key = l.key ∧
      x.lock.Adjoins (hull new e.lock) := by
  have hwf := h.core.wf
  have hbytes := mem_bytes_hull new e.lock htouch
  have happart : ∀ x ∈ s.heldLocks, x ≠ e → x.lock.key = l.key → ¬x.lock.Overlaps e.lock :=
    fun x hx hne hkx => hwf.not_overlaps hx he hne (hkx.trans hkey.symm)
  refine ⟨h.core.absorb he hkey htype (hull_inRange h.core.range (hwf.range e he)) h.core.key
    h.core.type hbytes, fun hl => by simp [hull, h.toEnd hl], ?_, ?_⟩
  · intro x hx hkx hox
    obtain ⟨hx, hne⟩ := (hwf.ordered.mem_eraseHeld he).mp hx
    exact ⟨h.own x hx hkx ((overlaps_of_bytes hbytes hox).resolve_right (happart x hx hne hkx)),
      hne⟩
  · intro x hx hne
    obtain ⟨hx, hkx, hadj⟩ := h.neighbor x hx
    refine ⟨(hwf.ordered.mem_eraseHeld he).mpr ⟨hx, hne⟩, hkx, ?_⟩
    have hno := happart x hx hne hkx
    unfold Overlaps Adjoins at htouch
    unfold Overlaps at hno
    unfold Adjoins at hadj ⊢
    simp only [hull]
    split_ifs <;> omega

section

variable (h : Adjusting s0 l (e :: olds) neighbors s new)

include h

theorem Adjusting.unite (htype : e.lock.type = l.type) :
    Adjusting s0 l olds neighbors (s.eraseHeld e) (hull new e.lock) := by
  obtain ⟨he, hkey, hover⟩ := h.old e mem_cons_self
  obtain ⟨hfirst, hstarts⟩ := pairwise_cons.mp h.starts
  have hwf := h.core.wf
  have hin := hwf.range e he
  have hnew := h.core.range
  have happart : ∀ x ∈ s.heldLocks, x ≠ e → x.lock.key = l.key → ¬x.lock.Overlaps e.lock :=
    fun x hx hne hkx => hwf.not_overlaps hx he hne (hkx.trans hkey.symm)
  obtain ⟨hcore, htoEnd, hown, hneighbor⟩ := h.absorb he hkey htype (.inl hover)
  refine ⟨hcore, htoEnd, ?_, ?_, hstarts, ?_, ?_, ?_, h.nodup⟩
  · intro hl hlen
    have hnew0 : new.length ≠ 0 := fun h0 => by simpa using h.endless hl h0
    cases olds with
    | nil => rfl
    | cons y rest =>
      -- an old lock without end is the last
      exfalso
      obtain ⟨hy, hky, hoy⟩ := h.old y (by simp)
      obtain ⟨hne, hle⟩ := hfirst y mem_cons_self
      have hno := happart y hy hne.symm hky
      unfold Overlaps at hno hover hoy
      simp only [hull] at hlen
      split_ifs at hlen with hzero
      · omega
      · omega
  · intro x hx
    obtain ⟨hx', hkx, hox⟩ := h.old x (mem_cons_of_mem _ hx)
    refine ⟨(hwf.ordered.mem_eraseHeld he).mpr ⟨hx', (hfirst x hx).1.symm⟩, hkx, ?_⟩
    obtain ⟨b, hb, hb'⟩ := overlaps_iff.mp hox
    exact overlaps_iff.mpr ⟨b, hb, (mem_bytes_hull new e.lock (.inl hover) b).mpr (.inl hb')⟩
  · intro x hx hkx hox
    obtain ⟨hx', hne⟩ := hown x hx hkx hox
    exact (mem_cons.mp hx').resolve_left hne
  · intro x hx htx hlx hlen
    obtain ⟨hx', hkx, hox⟩ := h.old x (mem_cons_of_mem _ hx)
    have hnew0 : new.length ≠ 0 := by
      intro h0
      simp [hull, h0] at hlen
    have helen : e.lock.length ≠ 0 := by
      intro h0
      simp [hull, h0] at hlen
    have hfits := h.fits x (mem_cons_of_mem _ hx) htx hlx hnew0
    have hno := happart x hx' (hfirst x hx).1.symm hkx
    have hle := (hfirst x hx).2
    -- the old lock ends before the next one starts
    have hlast : (hull new e.lock).lastByte = new.lastByte := by
      rw [lastByte_eq (hull_inRange hnew hin) hlen, lastByte_eq hnew hnew0]
      unfold Overlaps at hno hox hover
      simp only [hull, hnew0, helen, or_self, if_false]
      omega
    rw [hlast]
    exact hfits
  · intro x hx
    refine hneighbor x hx ?_
    rintro rfl
    exact (h.neighbor x hx).2.2.not_overlaps hover

theorem Adjusting.giveWay {s'}
    (hcut : CutFrom s s' e new) : Adjusting s0 l olds neighbors s' new := by
  obtain ⟨he, hkey, hover⟩ := h.old e mem_cons_self
  obtain ⟨hfirst, hstarts⟩ := pairwise_cons.mp h.starts
  refine ⟨h.core.cut he hkey hcut, h.toEnd, ?_, ?_, hstarts, ?_, ?_, ?_, h.nodup⟩
  · intro hl hlen
    simpa using h.endless hl hlen
  · intro x hx
    obtain ⟨hx', hrest⟩ := h.old x (mem_cons_of_mem _ hx)
    exact ⟨hcut.kept x hx' (hfirst x hx).1.symm, hrest⟩
  · intro x hx hkx hox
    rcases hcut.pieces x hx with ⟨hold, hne⟩ | ⟨-, -, hsub⟩
    · exact (mem_cons.mp (h.own x hold hkx hox)).resolve_left hne
    · obtain ⟨b, hb, hb'⟩ := overlaps_iff.mp hox
      exact absurd hb' (hsub b hb).2
  · exact fun x hx => h.fits x (mem_cons_of_mem _ hx)
  · intro x hx
    obtain ⟨hx', hkx, hadj⟩ := h.neighbor x hx
    have hne : x ≠ e := by
      rintro rfl
      exact hadj.not_overlaps hover
    exact ⟨hcut.kept x hx' hne, hkx, hadj⟩

theorem Adjusting.adjustOld_eq : LockState.adjustOld (decide (l.length = 0)) (s, new) e =
      if e.lock.type = l.type then (s.eraseHeld e, hull new e.lock)
      else (s.cutOut (decide (new.length = 0)) e new, new) := by
  obtain ⟨he, -, -⟩ := h.old e mem_cons_self
  have hin := h.core.wf.range e he
  have hnew := h.core.range
  have hend : l.length = 0 ↔ new.length = 0 :=
    ⟨h.toEnd, fun h0 => by_contra fun hl => by simpa using h.endless hl h0⟩
  by_cases htype : e.lock.type = l.type
  · have hmin : (if e.lock.start < new.start then e.lock.start else new.start) =
        min e.lock.start new.start := by
      split_ifs <;> omega
    simp only [LockState.adjustOld, if_pos (htype.trans h.core.type.symm), if_pos htype, hmin, hend,
      decide_eq_true_eq]
    by_cases hzero : new.length = 0 ∨ e.lock.length = 0
    · simp only [if_pos hzero, hull]
    · have hlen := not_or.mp hzero
      have hmax : (if e.lock.lastByte < new.lastByte then new.lastByte else e.lock.lastByte) =
          max e.lock.lastByte new.lastByte := by
        split_ifs <;> omega
      have hfits := h.fits e mem_cons_self htype hlen.2 hlen.1
      rw [lastByte_eq hin hlen.2, lastByte_eq hnew hlen.1] at hfits
      unfold InRange at hin hnew
      rw [if_neg hzero, hmax, lastByte_eq (h.core.wf.range e he) hlen.2,
        lastByte_eq h.core.range hlen.1, intToU64_toInt32 hfits (by omega) (by omega)]
      have hlength : max (e.lock.start + e.lock.length - 1) (new.start + new.length - 1) -
          min e.lock.start new.start + 1 =
          max (e.lock.start + e.lock.length) (new.start + new.length) -
            min e.lock.start new.start := by omega
      simp only [hull, if_neg hzero, hlength]
  · simp only [LockState.adjustOld, h.core.type, if_neg htype, hend]

theorem Adjusting.adjustOld :
    Adjusting s0 l olds neighbors (LockState.adjustOld (decide (l.length = 0)) (s, new) e).1
      (LockState.adjustOld (decide (l.length = 0)) (s, new) e).2 := by
  obtain ⟨he, -, hover⟩ := h.old e mem_cons_self
  rw [h.adjustOld_eq]
  by_cases htype : e.lock.type = l.type
  · rw [if_pos htype]
    exact h.unite htype
  · rw [if_neg htype]
    exact h.giveWay (cutFrom h.core.wf he h.core.range hover)

end

theorem Adjusting.adjustOlds (h : Adjusting s0 l olds neighbors s new) : Adjusting s0 l [] neighbors
      (olds.foldl (LockState.adjustOld (decide (l.length = 0))) (s, new)).1
      (olds.foldl (LockState.adjustOld (decide (l.length = 0))) (s, new)).2 := by
  induction olds generalizing s new with
  | nil => exact h
  | cons e olds ih => exact ih h.adjustOld

section

variable (h : Adjusting s0 l [] (e :: neighbors) s new)

include h

theorem Adjusting.adjustNeighbor_eq : LockState.adjustNeighbor (s, new) e =
      .ok (if e.lock.type = l.type then (s.eraseHeld e, hull new e.lock) else (s, new)) := by
  obtain ⟨he, -, hadj⟩ := h.neighbor e mem_cons_self
  have hin := h.core.wf.range e he
  have hnew := h.core.range
  by_cases htype : e.lock.type = l.type
  · simp only [LockState.adjustNeighbor, if_pos (htype.trans h.core.type.symm), if_pos htype, hull]
    unfold InRange at hin hnew
    have hlength (hlen : ¬(new.length = 0 ∨ e.lock.length = 0)) :
        u64 (e.lock.length + new.length) =
          max (e.lock.start + e.lock.length) (new.start + new.length) -
            min e.lock.start new.start := by
      unfold Adjoins at hadj
      rw [u64_of_lt] <;> omega
    rcases hadj with ⟨hlen', hleft⟩ | ⟨hlen, hright⟩
    · have hsum : u64 (e.lock.start + e.lock.length) = new.start := by
        rw [u64_of_lt] <;> omega
      have hmin : min e.lock.start new.start = e.lock.start := by omega
      by_cases hlen : new.length = 0 <;> simp_all
    · have hsum : u64 (new.start + new.length) = e.lock.start := by
        rw [u64_of_lt] <;> omega
      have hmin : min e.lock.start new.start = new.start := by omega
      by_cases hlen' : e.lock.length = 0
      · simp_all
      · have hsum' : u64 (e.lock.start + e.lock.length) ≠ new.start := by
          rw [u64_of_lt] <;> omega
        simp_all
  · simp only [LockState.adjustNeighbor, h.core.type, if_neg htype]

theorem Adjusting.merge (htype : e.lock.type = l.type) :
    Adjusting s0 l [] neighbors (s.eraseHeld e) (hull new e.lock) := by
  obtain ⟨he, hkey, hadj⟩ := h.neighbor e mem_cons_self
  obtain ⟨hnot, hnodup⟩ := nodup_cons.mp h.nodup
  obtain ⟨hcore, htoEnd, hown, hneighbor⟩ := h.absorb he hkey htype (.inr hadj)
  exact ⟨hcore, htoEnd, fun _ _ => rfl, by simp, List.Pairwise.nil,
    fun x hx hkx hox => (hown x hx hkx hox).1, by simp,
    fun x hx => hneighbor x (mem_cons_of_mem _ hx) fun heq => hnot (heq ▸ hx), hnodup⟩

theorem Adjusting.pass : Adjusting s0 l [] neighbors s new :=
  ⟨h.core, h.toEnd, fun _ _ => rfl, h.old, h.starts, h.own, h.fits,
    fun x hx => h.neighbor x (mem_cons_of_mem _ hx), (nodup_cons.mp h.nodup).2⟩

end

theorem Adjusting.adjustNeighbors (h : Adjusting s0 l [] neighbors s new) :
    ∃ s' new', neighbors.foldlM LockState.adjustNeighbor (s, new) = .ok (s', new') ∧
      Adjusting s0 l [] [] s' new' := by
  induction neighbors generalizing s new with
  | nil => exact ⟨s, new, rfl, h⟩
  | cons e neighbors ih =>
    rw [foldlM_cons, h.adjustNeighbor_eq, Fallible.ok_bind]
    by_cases htype : e.lock.type = l.type
    · rw [if_pos htype]
      exact ih (h.merge htype)
    · rw [if_neg htype]
      exact ih h.pass

theorem Adjusting.insertHeld (h : Adjusting s0 l [] [] s new) :
    (s.insertHeld new).Wf ∧ ∀ o b t, (s.insertHeld new).Holds o b t ↔
      (o = l.key ∧ b ∈ l.bytes ∧ t = l.type ∨ ¬(o = l.key ∧ b ∈ l.bytes) ∧ s0.Holds o b t) := by
  have hwf := h.core.wf
  have hown : ∀ e ∈ s.heldLocks, e.lock.key = l.key → ¬e.lock.Overlaps new :=
    fun e he hkey hover => not_mem_nil (h.own e he hkey hover)
  have hcompat : ∀ e ∈ s.heldLocks, e.lock.Compatible new := by
    intro e he hover
    have hkey : e.lock.key ≠ l.key := fun hkey => hown e he hkey hover
    have hshared := h.core.others e he hkey hover
    exact ⟨h.core.key ▸ hkey, hshared.1, h.core.type ▸ hshared.2⟩
  refine ⟨⟨hwf.ordered.insertHeld new, ?_, ?_⟩, ?_⟩
  · intro e he
    rcases mem_insertHeld.mp he with rfl | he
    · exact h.core.range
    · exact hwf.range e he
  · intro e he x hx hne
    rcases mem_insertHeld.mp he with rfl | he
    · rcases mem_insertHeld.mp hx with rfl | hx
      · exact absurd rfl hne
      · exact (hcompat x hx).symm
    · rcases mem_insertHeld.mp hx with rfl | hx
      · exact hcompat e he
      · exact hwf.compatible e he x hx hne
  · intro o b t
    rw [← h.core.meaning]
    constructor
    · rintro ⟨e, he, rfl, hb, rfl⟩
      rcases mem_insertHeld.mp he with rfl | he
      · exact .inl ⟨h.core.key, hb, h.core.type⟩
      · refine .inr ⟨fun hboth => ?_, e, he, rfl, hb, rfl⟩
        exact hown e he hboth.1 (overlaps_iff.mpr ⟨b, hb, hboth.2⟩)
    · rintro (⟨rfl, hb, rfl⟩ | ⟨-, e, he, hkey, hb, htype⟩)
      · exact ⟨_, mem_insertHeld.mpr (.inl rfl), h.core.key, hb, h.core.type⟩
      · exact ⟨e, mem_insertHeld.mpr (.inr he), hkey, hb, htype⟩

end Inserting

/-! ### `add_lock` -/

/-- What `add_lock` asks of a new lock: its end is in the range of offsets, and the `int` of
the merge holds the end of what is merged. -/
structure Mergeable (s : LockState) (l : FileLock) : Prop where
  range : l.InRange
  fits : ∀ e ∈ s.heldLocks, e.lock.key = l.key → e.lock.Overlaps l → e.lock.type = l.type →
    e.lock.length ≠ 0 → l.length ≠ 0 → FitsInt (max e.lock.lastByte l.lastByte)

@[simp]
theorem removeWaiting_heldLocks (s : LockState) (l : FileLock) :
    (s.removeWaiting l).heldLocks = s.heldLocks := by
  unfold removeWaiting
  simp only
  split_ifs <;> rfl

@[simp]
theorem removeWaiting_nextId (s : LockState) (l : FileLock) :
    (s.removeWaiting l).nextId = s.nextId := by
  unfold removeWaiting
  simp only
  split_ifs <;> rfl

theorem Wf.removeWaiting (h : s.Wf) (l : FileLock) : (s.removeWaiting l).Wf := by
  obtain ⟨⟨hnames, hfresh, hstarts⟩, hrange, hcompat⟩ := h
  refine ⟨⟨?_, ?_, ?_⟩, ?_, ?_⟩ <;> simpa

def Obstructed (s : LockState) (l : FileLock) : Prop :=
  ∃ e ∈ s.heldLocks, e.lock.key ≠ l.key ∧ e.lock.Overlaps l ∧ l.type.Conflicts e.lock.type

theorem Wf.blocked_iff (h : s.Wf) : s.locks.Blocked l.key l.bytes l.type ↔ s.Obstructed l := by
  constructor
  · rintro ⟨o, hne, b, hb, t, hheld, hconf⟩
    obtain ⟨e, he, rfl, hbe, rfl⟩ := h.locks_eq_some.mp hheld
    exact ⟨e, he, hne, overlaps_iff.mpr ⟨b, hbe, hb⟩, hconf⟩
  · rintro ⟨e, he, hne, hover, hconf⟩
    obtain ⟨b, hbe, hb⟩ := overlaps_iff.mp hover
    exact ⟨e.lock.key, hne, b, hb, e.lock.type, h.locks_eq_some.mpr ⟨e, he, rfl, hbe, rfl⟩, hconf⟩

theorem adjusting_init (h : s.Wf) (hm : Mergeable s l) (hfree : ¬s.Obstructed l) :
    Adjusting s l ((s.getOverlappingLocks l).1.filter fun e => ownerEqual e.lock l)
      (s.getOverlappingLocks l).2 (s.removeWaiting l) l := by
  have hown : ∀ e, e ∈ (s.getOverlappingLocks l).1.filter (fun e => ownerEqual e.lock l) ↔
      e ∈ s.heldLocks ∧ e.lock.Overlaps l ∧ e.lock.key = l.key := by
    intro e
    rw [getOverlappingLocks_fst h hm.range]
    simp only [mem_filter, decide_eq_true_eq, ownerEqual_iff, and_assoc]
  refine ⟨⟨h.removeWaiting l, hm.range, rfl, rfl, ?_, ?_⟩, id, fun hl h0 => absurd h0 hl, ?_, ?_,
    ?_, ?_, ?_, getOverlappingLocks_snd_nodup h l⟩
  · intro e he hne hover
    rw [removeWaiting_heldLocks] at he
    have hconf : ¬l.type.Conflicts e.lock.type := fun hconf => hfree ⟨e, he, hne, hover, hconf⟩
    exact (LockMode.not_conflicts_iff.mp hconf).symm
  · intro o b t
    have hsame : (s.removeWaiting l).Holds o b t ↔ s.Holds o b t := by
      unfold Holds
      rw [removeWaiting_heldLocks]
    rw [hsame]
  · intro e he
    obtain ⟨he, hover, hkey⟩ := (hown e).mp he
    exact ⟨by simpa using he, hkey, hover⟩
  · rw [getOverlappingLocks_fst h hm.range]
    apply List.Pairwise.filter
    apply List.Pairwise.filter
    exact h.heldLocks_nodup.and h.ordered.starts
  · intro e he hkey hover
    exact (hown e).mpr ⟨by simpa using he, hover, hkey⟩
  · intro e he htype hlen hlen'
    obtain ⟨he, hover, hkey⟩ := (hown e).mp he
    exact hm.fits e he hkey hover htype hlen hlen'
  · intro e he
    obtain ⟨he, hkey, hadj⟩ := (mem_getOverlappingLocks_snd h hm.range).mp he
    exact ⟨by simpa using he, hkey, hadj⟩

def others (s : LockState) (l : FileLock) : List Held :=
  (s.getOverlappingLocks l).1.filter fun e => !ownerEqual e.lock l

/-- The test of `add_lock`. -/
def blocked (s : LockState) (l : FileLock) : Bool :=
  !(s.others l).isEmpty &&
    (decide (l.type = .excl) || (s.others l).any fun e => decide (e.lock.type = .excl))

theorem addLock_eq (s : LockState) (l : FileLock) (waitOnFail replay : Bool) :
    s.addLock l waitOnFail replay =
      if s.blocked l then .ok (if waitOnFail ∧ ¬replay then s.insertWaiting l else s, false)
      else
        adjustLocks (s.removeWaiting l)
          ((s.getOverlappingLocks l).1.filter fun e => ownerEqual e.lock l) l
          (s.getOverlappingLocks l).2 >>= fun r => .ok (r.1.insertHeld r.2, true) := rfl

theorem blocked_iff (h : s.Wf) (hl : l.InRange) : s.blocked l ↔ s.Obstructed l := by
  have hmem : ∀ e, e ∈ s.others l ↔ e ∈ s.heldLocks ∧ e.lock.Overlaps l ∧ e.lock.key ≠ l.key := by
    intro e
    rw [others, getOverlappingLocks_fst h hl]
    simp only [mem_filter, decide_eq_true_eq, Bool.not_eq_true', ← Bool.not_eq_true,
      ownerEqual_iff, and_assoc, ne_eq]
  simp only [blocked, Bool.and_eq_true, Bool.not_eq_true', isEmpty_eq_false_iff_exists_mem,
    Bool.or_eq_true, decide_eq_true_eq, any_eq_true]
  constructor
  · rintro ⟨⟨e, he⟩, hexcl | ⟨x, hx, hexcl⟩⟩
    · obtain ⟨he, hover, hne⟩ := (hmem e).mp he
      exact ⟨e, he, hne, hover, .inl hexcl⟩
    · obtain ⟨hx, hover, hne⟩ := (hmem x).mp hx
      exact ⟨x, hx, hne, hover, .inr hexcl⟩
  · rintro ⟨e, he, hne, hover, hexcl⟩
    have he := (hmem e).mpr ⟨he, hover, hne⟩
    exact ⟨⟨e, he⟩, hexcl.imp id fun hexcl => ⟨e, he, hexcl⟩⟩

/-- `add_lock` fails when it is obstructed, and then changes no held lock; otherwise it
sets the owner's bytes of the range. -/
theorem addLock_spec (h : s.Wf) (hm : Mergeable s l) (waitOnFail replay : Bool) :
    (s.Obstructed l → ∃ s', s.addLock l waitOnFail replay = .ok (s', false) ∧
      s'.heldLocks = s.heldLocks ∧ s'.nextId = s.nextId) ∧
    (¬s.Obstructed l → ∃ s', s.addLock l waitOnFail replay = .ok (s', true) ∧ s'.Wf ∧
      ∀ o b t, s'.Holds o b t ↔
        (o = l.key ∧ b ∈ l.bytes ∧ t = l.type ∨ ¬(o = l.key ∧ b ∈ l.bytes) ∧ s.Holds o b t)) := by
  rw [addLock_eq, ← blocked_iff h hm.range]
  constructor
  · intro hobs
    rw [if_pos hobs]
    refine ⟨_, rfl, ?_, ?_⟩ <;> split_ifs <;> rfl
  · intro hfree
    have hloop := (adjusting_init h hm (hfree ∘ (blocked_iff h hm.range).mpr)).adjustOlds
    obtain ⟨s', new, hrun, hdone⟩ := hloop.adjustNeighbors
    rw [if_neg hfree, adjustLocks, hrun]
    exact ⟨_, rfl, hdone.insertHeld⟩

/-! ### Runs -/

inductive Op
  | add (lock : FileLock) (waitOnFail replay : Bool)
  | remove (lock : FileLock)

/-- One request; `add_lock` says whether it succeeded. -/
def step (s : LockState) : Op → Run (LockState × Bool)
  | .add lock waitOnFail replay => s.addLock lock waitOnFail replay
  | .remove lock => .ok (s.removeLock lock, true)

/-- The condition on a request: a finite range ends before the last offset, and an `int`
holds the end of what `add_lock` merges. -/
def Meets (s : LockState) : Op → Prop
  | .add lock _ _ => Mergeable s lock
  | .remove lock => lock.InRange

def MeetingStep (op : Op) (s s' : LockState) : Prop := Meets s op ∧ ∃ r, step s op = .ok (s', r)

/-- A request does to the map of locks what it is for. -/
def StepRefines (s : LockState) (op : Op) : Prop :=
  ∃ s' r, step s op = .ok (s', r) ∧
    match op with
    | .add l _ _ =>
      (r = true ↔ ¬s.locks.Blocked l.key l.bytes l.type) ∧
        (r = true → s'.locks = s.locks.assign l.key l.bytes (some l.type)) ∧
        (r = false → s'.heldLocks = s.heldLocks)
    | .remove l => s'.locks = s.locks.assign l.key l.bytes none

theorem wf_empty : empty.Wf :=
  ⟨⟨List.Pairwise.nil, by simp [empty], List.Pairwise.nil⟩, by simp [empty], by simp [empty]⟩

theorem Wf.consistent (h : s.Wf) : s.locks.Consistent := by
  intro o o' b t t' hne hheld hheld'
  obtain ⟨e, he, rfl, hb, rfl⟩ := h.locks_eq_some.mp hheld
  obtain ⟨x, hx, rfl, hb', rfl⟩ := h.locks_eq_some.mp hheld'
  have hex : e ≠ x := fun heq => hne (by rw [heq])
  rw [LockMode.not_conflicts_iff]
  exact (h.compatible e he x hx hex (overlaps_iff.mpr ⟨b, hb, hb'⟩)).2

theorem Wf.locks_eq_assign (h : s.Wf) (h' : s'.Wf) {o0} {r} {v}
    (hholds : ∀ o b t, s'.Holds o b t ↔ (o = o0 ∧ b ∈ r) ∧ v = some t ∨ ¬(o = o0 ∧ b ∈ r) ∧
      s.Holds o b t) :
    s'.locks = s.locks.assign o0 r v := by
  funext o b
  apply Option.ext
  intro t
  rw [h'.locks_eq_some, LockMap.assign_eq_some, h.locks_eq_some, hholds]

variable {op : Op}

theorem Wf.step (h : s.Wf) (hop : Meets s op) :
    StepRefines s op ∧ ∃ s' r, step s op = .ok (s', r) ∧ s'.Wf := by
  cases op with
  | add l waitOnFail replay =>
    obtain ⟨hblocked, hfree⟩ := addLock_spec h hop waitOnFail replay
    by_cases hobs : s.Obstructed l
    · obtain ⟨s', hrun, hheld, hnext⟩ := hblocked hobs
      refine ⟨⟨s', false, hrun, ?_, by simp, fun _ => hheld⟩, s', false, hrun, ?_⟩
      · simpa [h.blocked_iff] using hobs
      · obtain ⟨⟨hnames, hfresh, hstarts⟩, hrange, hcompat⟩ := h
        exact ⟨⟨by rwa [hheld], by rwa [hheld, hnext], by rwa [hheld]⟩, by rwa [hheld],
          by rwa [hheld]⟩
    · obtain ⟨s', hrun, hwf, hholds⟩ := hfree hobs
      refine ⟨⟨s', true, hrun, ?_, fun _ => ?_, by simp⟩, s', true, hrun, hwf⟩
      · simpa [h.blocked_iff] using hobs
      · apply h.locks_eq_assign hwf
        intro o b t
        rw [hholds, Option.some.injEq, and_assoc, eq_comm (a := l.type)]
  | remove l =>
    obtain ⟨hwf, hholds⟩ := removeLock_spec h hop
    refine ⟨⟨_, true, rfl, ?_⟩, _, true, rfl, hwf⟩
    apply h.locks_eq_assign hwf
    intro o b t
    rw [hholds, and_comm]
    simp

theorem Wf.meetingStep (h : s.Wf) (hstep : MeetingStep op s s') : s'.Wf := by
  obtain ⟨hop, r, hrun⟩ := hstep
  obtain ⟨-, s'', r', hrun', hwf⟩ := h.step hop
  cases hrun.symm.trans hrun'
  exact hwf

theorem wf_of_trace {ops} (hrun : Trace MeetingStep empty ops s) : s.Wf :=
  hrun.invariant (fun _ _ _ _ hstep h => h.meetingStep hstep) wf_empty

/-- After every run whose requests meet the condition, no two owners hold conflicting locks
on a byte, and every request that meets it does what the map of locks by byte says. -/
theorem lockTable_refines (ops : List Op) (s : LockState) (hrun : Trace MeetingStep empty ops s) :
    s.locks.Consistent ∧ ∀ op, Meets s op → StepRefines s op := by
  have hwf := wf_of_trace hrun
  exact ⟨hwf.consistent, fun op hop => (hwf.step hop).1⟩

def sampleLock (start length owner : ℕ) (type : LockMode) : FileLock :=
  ⟨start, length, 1, owner, 1, type⟩

/-- After one shared lock, the same owner takes an exclusive lock on a part of it. -/
theorem lockTable_refines_upgrade :
    ∃ s, step empty (.add (sampleLock 0 10 1 .shared) false false) = .ok (s, true) ∧
      s.locks.Consistent ∧ StepRefines s (.add (sampleLock 5 3 1 .excl) false false) := by
  have hmeets : Meets empty (.add (sampleLock 0 10 1 .shared) false false) :=
    ⟨by simp [InRange, sampleLock], by simp [empty]⟩
  obtain ⟨s, h1⟩ : ∃ t, t = empty.insertHeld (sampleLock 0 10 1 .shared) := ⟨_, rfl⟩
  have hstep : step empty (.add (sampleLock 0 10 1 .shared) false false) = .ok (s, true) := by
    rw [h1]
    rfl
  obtain ⟨hcons, href⟩ := lockTable_refines _ s (Trace.single ⟨hmeets, true, hstep⟩)
  refine ⟨s, hstep, hcons, href _ ⟨by simp [InRange, sampleLock], ?_⟩⟩
  intro e he _ _ htype
  rw [h1, mem_insertHeld] at he
  rcases he with rfl | he
  · exact absurd htype (by decide)
  · exact absurd he (by simp [empty])

/-- Two shared locks on the same 4 GiB become one without end; and a range up to the last
offset is granted over another owner's exclusive lock. -/
theorem lockTable_unsound :
    (((do
      let (s, _) ← empty.addLock (sampleLock 0 (2 ^ 32) 1 .shared) false false
      let (s, _) ← s.addLock (sampleLock 0 (2 ^ 32) 1 .shared) false false
      return s.locks (1, 1, some 1) (2 ^ 40)) : Run (Option LockMode)) = .ok (some .shared)) ∧
    ((do
      let (s, _) ← empty.addLock (sampleLock 100 100 2 .shared) false false
      let (s, _) ← s.addLock (sampleLock 300 100 3 .excl) false false
      let (s, granted) ← s.addLock (sampleLock 1 (2 ^ 64 - 1) 1 .shared) false false
      return (granted, s.locks (1, 1, some 1) 300, s.locks (1, 3, some 1) 300)) :
        Run (Bool × Option LockMode × Option LockMode)) =
      .ok (true, some .shared, some .excl) := by
  constructor <;> decide +kernel

/-! ### `look_for_lock` -/

variable {l : FileLock}

/-- The request with an own lock that overlaps it: from the lower start to the higher end, which
passes through an `int`. -/
def unite (toEnd : Bool) (new old : FileLock) : FileLock :=
  let start := min old.start new.start
  if old.type ≠ new.type then new
  else if toEnd ∨ old.length = 0 then { new with start := start, length := 0 }
  else { new with
    start := start
    length := intToU64 (toInt32 (max old.lastByte new.lastByte) - start + 1) }

def join (new old : FileLock) : FileLock :=
  if new.length = 0 then { new with start := old.start }
  else if old.length = 0 then { new with length := 0 }
  else if u64 (old.start + old.length) = new.start then
    { new with start := old.start, length := u64 (old.length + new.length) }
  else if u64 (new.start + new.length) = old.start then
    { new with length := u64 (old.length + new.length) }
  else new

end LockState

end CephDokan.Mds
