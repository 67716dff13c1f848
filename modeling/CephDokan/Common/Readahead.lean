import CephDokan.Common.Buffer

/-!
# Read-ahead

`Readahead` watches the reads of a file and, once enough of them have followed each other, returns
the range to read next. Its position stays between the calls while the limit is given anew with
every call. Positions and sizes are `uint64_t`; the count of consecutive reads is an `int`.
-/

namespace CephDokan.Readahead

open Fallible List

structure Settings where
  triggerRequests : ℤ
  minBytes : ℕ
  maxBytes : ℕ
  alignments : List ℕ

structure State where
  nrConsecRead : ℤ
  consecReadBytes : ℕ
  lastPos : ℕ
  readaheadPos : ℕ
  readaheadTriggerPos : ℕ
  readaheadSize : ℕ

def State.init : State := ⟨0, 0, 0, 0, 0, 0⟩

/-- A call of `update`. -/
structure Call where
  offset : ℕ
  length : ℕ
  limit : ℕ

abbrev Extent := ℕ × ℕ

/-- `_observe_read` -/
def observeRead (s : State) (offset length : ℕ) : State :=
  let s :=
    if offset = s.lastPos then
      { s with
        nrConsecRead := Int.bmod (s.nrConsecRead + 1) (2 ^ 32)
        consecReadBytes := u64 (s.consecReadBytes + length) }
    else
      { s with
        nrConsecRead := 0
        consecReadBytes := 0
        readaheadTriggerPos := 0
        readaheadSize := 0 }
  { s with lastPos := u64 (offset + length) }

/-- Where the next read-ahead starts: at the read stream for the first one, then where the last
one ended. -/
def nextPos (s : State) : ℕ := if s.readaheadSize = 0 then s.lastPos else s.readaheadPos

variable (cfg : Settings)

def nextSize (s : State) : ℕ :=
  min (max (if s.readaheadSize = 0 then s.consecReadBytes else u64 (s.readaheadSize * 2))
    cfg.minBytes) cfg.maxBytes

/-- Snap the end of the read-ahead to the first alignment that is near enough. -/
def snap (offset length stop : ℕ) : List ℕ → Run ℕ
  | [] => .ok length
  | alignment :: rest =>
    let alignPrev := stop / alignment * alignment
    let alignNext := u64 (alignPrev + alignment)
    let distPrev := stop - alignPrev
    let distNext := sub64 alignNext stop
    if distPrev < length / 2 ∧ distPrev < distNext then do
      assertThat (alignPrev > offset)
      return sub64 alignPrev offset
    else if distNext < length / 2 then do
      assertThat (alignNext > offset)
      return sub64 alignNext offset
    else snap offset length stop rest

def clamp (pos length limit : ℕ) : ℕ :=
  if u64 (pos + length) > limit then sub64 limit pos else length

/-- The read stream is sequential and has come to the trigger. -/
def Triggered (s : State) : Prop :=
  s.nrConsecRead ≥ cfg.triggerRequests ∧ s.lastPos ≥ s.readaheadTriggerPos

instance (cfg : Settings) (s : State) : Decidable (Triggered cfg s) :=
  inferInstanceAs (Decidable (_ ∧ _))

/-- `_compute_readahead` -/
def computeReadahead (s : State) (limit : ℕ) : Run (State × Extent) :=
  if Triggered cfg s then do
    let pos := nextPos s
    let size := nextSize cfg s
    let snapped ← snap pos size (u64 (pos + size)) cfg.alignments
    let length := clamp pos snapped limit
    return ({ s with
      readaheadSize := size
      readaheadTriggerPos := u64 (pos + length / 2)
      readaheadPos := u64 (pos + length) }, (pos, length))
  else return (s, (0, 0))

def update (s : State) (c : Call) : Run (State × Extent) :=
  computeReadahead cfg (observeRead s c.offset c.length) c.limit

def run (cfg : Settings) : State → List Call → Run (List Extent)
  | _, [] => return []
  | s, c :: calls => do
    let r ← update cfg s c
    let es ← run cfg r.1 calls
    return r.2 :: es

/-- A condition on every call of a sequence and the state it meets. -/
def Along (cfg : Settings) (P : State → Call → Prop) : State → List Call → Prop
  | _, [] => True
  | s, c :: calls => P s c ∧ ∀ r, update cfg s c = .ok r → Along cfg P r.1 calls

instance decidableAlong (cfg : Settings) (P : State → Call → Prop) [∀ s c, Decidable (P s c)] :
    ∀ s calls, Decidable (Along cfg P s calls)
  | _, [] => .isTrue trivial
  | s, c :: calls =>
    match h : update cfg s c with
    | .ok r =>
      have := decidableAlong cfg P r.1 calls
      decidable_of_iff (P s c ∧ Along cfg P r.1 calls) (by simp [Along, h])
    | .error e => decidable_of_iff (P s c) (by simp [Along, h])

/-- The settings of the `uint64_t` members, as the setters are used. -/
structure Settings.Positive (cfg : Settings) : Prop where
  min : 0 < cfg.minBytes
  max : 0 < cfg.maxBytes
  alignments : ∀ a ∈ cfg.alignments, 0 < a ∧ a < 2 ^ 64

def Call.Inside (c : Call) : Prop := c.offset + c.length ≤ c.limit ∧ c.limit < 2 ^ 64

/-- A read-ahead that starts in this call has room for one and a half times its size. -/
def Fits (s : State) (c : Call) : Prop :=
  Triggered cfg (observeRead s c.offset c.length) →
    nextPos (observeRead s c.offset c.length) + nextSize cfg (observeRead s c.offset c.length) +
      nextSize cfg (observeRead s c.offset c.length) / 2 < 2 ^ 64

instance (cfg : Settings) (s : State) (c : Call) : Decidable (Fits cfg s c) :=
  inferInstanceAs (Decidable (_ → _))

def Within (s : State) (c : Call) : Prop :=
  Triggered cfg (observeRead s c.offset c.length) →
    nextPos (observeRead s c.offset c.length) ≤ c.limit

instance (cfg : Settings) (s : State) (c : Call) : Decidable (Within cfg s c) :=
  inferInstanceAs (Decidable (_ → _))

instance (c : Call) : Decidable c.Inside := inferInstanceAs (Decidable (_ ∧ _))

/-- What is promised of the extents `es` that the calls return: none passes its limit, and in a
sequence of reads that follow each other each extent starts where the one before it ended. -/
structure Keeps (calls : List Call) (es : List Extent) : Prop where
  limit : List.Forall₂ (fun c e => 0 < e.2 → e.1 + e.2 ≤ c.limit) calls es
  consecutive : ∀ i j e e', i < j → es[i]? = some e → es[j]? = some e' → 0 < e.2 → 0 < e'.2 →
    (∀ k f, i < k → k < j → es[k]? = some f → f.2 = 0) →
    (∀ k c c', i ≤ k → k < j → calls[k]? = some c → calls[k + 1]? = some c' →
      c'.offset = c.offset + c.length) →
    e'.1 = e.1 + e.2

variable {cfg : Settings} {s : State} {c : Call}

/-- With room beyond the read-ahead no assertion fails, and the end moves by less than half of the
size. -/
theorem snap_spec {offset length} (hroom : offset + length + length / 2 < 2 ^ 64)
    {as} (has : ∀ a ∈ as, 0 < a ∧ a < 2 ^ 64) :
    ∃ n, snap offset length (u64 (offset + length)) as = .ok n ∧ offset + n < 2 ^ 64 := by
  rw [u64_of_lt (by omega)]
  induction as with
  | nil => exact ⟨length, rfl, by omega⟩
  | cons a as ih =>
    obtain ⟨ha, ha64⟩ := has a mem_cons_self
    have hprev := Nat.div_add_mod' (offset + length) a
    have hrest := Nat.mod_lt (offset + length) ha
    -- the distance to the next alignment point does not depend on whether the point wraps
    have hnext : sub64 (u64 ((offset + length) / a * a + a)) (offset + length) =
        a - (offset + length) % a := by
      unfold sub64 u64
      omega
    unfold snap
    dsimp only
    split_ifs with hdown hup
    · rw [assertThat_of (by omega), ok_bind, sub64_of_le (by omega) (by omega)]
      exact ⟨_, rfl, by omega⟩
    · rw [u64_of_lt (by omega), assertThat_of (by omega), ok_bind,
        sub64_of_le (by omega) (by omega)]
      exact ⟨_, rfl, by omega⟩
    · exact ih fun b hb => has b (mem_cons_of_mem _ hb)

theorem observeRead_lastPos (hin : c.Inside) :
    (observeRead s c.offset c.length).lastPos = c.offset + c.length := by
  exact u64_of_lt (hin.1.trans_lt hin.2)

theorem nextSize_pos (hcfg : cfg.Positive) : 0 < nextSize cfg s :=
  lt_min (lt_max_of_lt_right hcfg.min) hcfg.max

/-- What a call may do: nothing is due, or a read-ahead starts at `nextPos`. -/
inductive Outcome (cfg : Settings) (s : State) (c : Call) : State → Extent → Prop
  | idle (h : ¬Triggered cfg (observeRead s c.offset c.length)) :
      Outcome cfg s c (observeRead s c.offset c.length) (0, 0)
  | ahead {t : State} {snapped : ℕ} (h : Triggered cfg (observeRead s c.offset c.length))
      (hroom : nextPos (observeRead s c.offset c.length) + snapped < 2 ^ 64)
      (hlast : t.lastPos = (observeRead s c.offset c.length).lastPos)
      (hsize : t.readaheadSize = nextSize cfg (observeRead s c.offset c.length))
      (hpos : t.readaheadPos = u64 (nextPos (observeRead s c.offset c.length) +
        clamp (nextPos (observeRead s c.offset c.length)) snapped c.limit)) :
      Outcome cfg s c t (nextPos (observeRead s c.offset c.length),
        clamp (nextPos (observeRead s c.offset c.length)) snapped c.limit)

theorem update_outcome (hcfg : cfg.Positive) (hfits : Fits cfg s c) :
    ∃ t e, update cfg s c = .ok (t, e) ∧ Outcome cfg s c t e := by
  unfold update computeReadahead
  split_ifs with htrig
  · obtain ⟨n, hsnap, hroom⟩ := snap_spec (hfits htrig) hcfg.alignments
    dsimp only
    rw [hsnap, ok_bind]
    exact ⟨_, _, rfl, .ahead htrig hroom rfl rfl rfl⟩
  · exact ⟨_, _, rfl, .idle htrig⟩

theorem clamp_iff {pos n limit} (hroom : pos + n < 2 ^ 64) :
    (0 < clamp pos n limit → pos + clamp pos n limit ≤ limit) ↔ pos ≤ limit := by
  unfold clamp
  rw [u64_of_lt hroom]
  unfold sub64 u64
  split_ifs with hcut <;> omega

variable {t : State} {e : Extent} {calls : List Call} {es : List Extent}

theorem Outcome.limit_iff (h : Outcome cfg s c t e) :
    (0 < e.2 → e.1 + e.2 ≤ c.limit) ↔ Within cfg s c := by
  cases h with
  | idle h => exact ⟨fun _ htrig => absurd htrig h, fun _ => by simp⟩
  | ahead h hroom =>
    rw [clamp_iff hroom]
    exact ⟨fun hle _ => hle, fun hle => hle h⟩

theorem Outcome.lastPos (h : Outcome cfg s c t e) (hin : c.Inside) :
    t.lastPos = c.offset + c.length := by
  cases h with
  | idle => exact observeRead_lastPos hin
  | ahead _ _ hlast => exact hlast.trans (observeRead_lastPos hin)

/-- A read-ahead has started in this run of reads and has come to `p`. -/
def Ahead (s : State) (p : ℕ) : Prop := s.readaheadSize ≠ 0 ∧ s.readaheadPos = p

theorem Outcome.ahead_of_pos (h : Outcome cfg s c t e)
    (hcfg : cfg.Positive) (hin : c.Inside) (hwithin : Within cfg s c) (hpos : 0 < e.2) :
    Ahead t (e.1 + e.2) := by
  have hlimit := h.limit_iff.mpr hwithin hpos
  have hless := hin.2
  cases h with
  | idle => exact absurd hpos (lt_irrefl 0)
  | ahead _ _ _ hsize hend =>
    refine ⟨?_, ?_⟩
    · rw [hsize]
      exact (nextSize_pos hcfg).ne'
    · rw [hend, u64_of_lt (by omega)]

/-- A read that follows the last one leaves the read-ahead where it is, or continues it. -/
theorem Outcome.continues {p} (h : Outcome cfg s c t e) (hcfg : cfg.Positive)
    (hnext : c.offset = s.lastPos) (hahead : Ahead s p) :
    (0 < e.2 → e.1 = p) ∧ (e.2 = 0 → Ahead t p) := by
  have hobs : Ahead (observeRead s c.offset c.length) p := by
    unfold observeRead
    rw [if_pos hnext]
    exact hahead
  have hstart : nextPos (observeRead s c.offset c.length) = p := by
    unfold nextPos
    rw [if_neg hobs.1, hobs.2]
  cases h with
  | idle => exact ⟨fun h => absurd h (lt_irrefl 0), fun _ => hobs⟩
  | ahead htrig _ _ hsize hend =>
    refine ⟨fun _ => hstart, fun hzero => ⟨?_, ?_⟩⟩
    · rw [hsize]
      exact (nextSize_pos hcfg).ne'
    · dsimp only at hzero
      rw [hend, hzero, Nat.add_zero, u64_of_lt (by omega), hstart]

theorem run_cons_eq_ok : run cfg s (c :: calls) = .ok es ↔
      ∃ t e es', update cfg s c = .ok (t, e) ∧ run cfg t calls = .ok es' ∧ es = e :: es' := by
  rw [run, bind_eq_ok]
  constructor
  · rintro ⟨⟨t, e⟩, hup, hrun⟩
    obtain ⟨es', hrest, hes⟩ := bind_eq_ok.mp hrun
    cases hes
    exact ⟨t, e, es', hup, hrest, rfl⟩
  · rintro ⟨t, e, es', hup, hrun, rfl⟩
    exact ⟨(t, e), hup, bind_eq_ok.mpr ⟨es', hrun, rfl⟩⟩

theorem Along.first (hcfg : cfg.Positive) (hfits : Along cfg (Fits cfg) s (c :: calls))
    (hup : update cfg s c = .ok (t, e)) : Outcome cfg s c t e ∧ Along cfg (Fits cfg) t calls := by
  obtain ⟨t', e', hup', hout⟩ := update_outcome hcfg hfits.1
  rw [hup] at hup'
  cases hup'
  exact ⟨hout, hfits.2 _ hup⟩

section

variable (hcfg : cfg.Positive) (hin : ∀ c ∈ calls, c.Inside) (hfits : Along cfg (Fits cfg) s calls)

include hcfg hin hfits

theorem run_ahead (hrun : run cfg s calls = .ok es) {p} (hahead : Ahead s p) {j}
    (he : es[j]? = some e) (hpos : 0 < e.2)
    (hzero : ∀ k f, k < j → es[k]? = some f → f.2 = 0)
    (hfirst : ∀ c, calls[0]? = some c → c.offset = s.lastPos)
    (hseq : ∀ k c c', k < j → calls[k]? = some c → calls[k + 1]? = some c' →
      c'.offset = c.offset + c.length) : e.1 = p := by
  induction calls generalizing s es j with
  | nil =>
    cases hrun
    cases he
  | cons c calls ih =>
    obtain ⟨t, f, es', hup, hrest, rfl⟩ := run_cons_eq_ok.mp hrun
    obtain ⟨hout, hfits'⟩ := hfits.first hcfg hup
    have hc := hin c mem_cons_self
    have hcont := hout.continues hcfg (hfirst c rfl) hahead
    cases j with
    | zero =>
      cases he
      exact hcont.1 hpos
    | succ j =>
      refine ih (fun c hc => hin c (mem_cons_of_mem _ hc)) hfits' hrest
        (hcont.2 (hzero 0 f (Nat.succ_pos j) rfl)) he ?_ ?_ ?_
      · intro k f hk hf
        exact hzero (k + 1) f (Nat.succ_lt_succ hk) hf
      · intro c' hc'
        rw [hout.lastPos hc]
        exact hseq 0 c c' (Nat.succ_pos j) rfl hc'
      · intro k c c' hk hc hc'
        exact hseq (k + 1) c c' (Nat.succ_lt_succ hk) hc hc'

theorem run_keeps (hwithin : Along cfg (Within cfg) s calls) :
    ∃ es, run cfg s calls = .ok es ∧ Keeps calls es := by
  induction calls generalizing s with
  | nil => exact ⟨[], rfl, .nil, by simp⟩
  | cons c calls ih =>
    obtain ⟨t, e, hup, hout⟩ := update_outcome hcfg hfits.1
    have hc := hin c mem_cons_self
    have hrest := fun d (hd : d ∈ calls) => hin d (mem_cons_of_mem _ hd)
    obtain ⟨es, hrun, hkeeps⟩ := ih hrest (hfits.2 _ hup) (hwithin.2 _ hup)
    refine ⟨e :: es, run_cons_eq_ok.mpr ⟨t, e, es, hup, hrun, rfl⟩, ?_, ?_⟩
    · exact .cons (hout.limit_iff.mpr hwithin.1) hkeeps.limit
    · intro i j f f' hij hf hf' hpos hpos' hzero hseq
      obtain ⟨j, rfl⟩ := Nat.exists_eq_succ_of_ne_zero (Nat.ne_of_gt (Nat.zero_lt_of_lt hij))
      cases i with
      | zero =>
        cases hf
        refine run_ahead hcfg hrest (hfits.2 _ hup) hrun
          (hout.ahead_of_pos hcfg hc hwithin.1 hpos) hf' hpos' ?_ ?_ ?_
        · intro k g hk hg
          exact hzero (k + 1) g (Nat.succ_pos k) (Nat.succ_lt_succ hk) hg
        · intro c' hc'
          rw [hout.lastPos hc]
          exact hseq 0 c c' (Nat.zero_le _) hij rfl hc'
        · intro k d d' hk hd hd'
          exact hseq (k + 1) d d' (Nat.zero_le _) (Nat.succ_lt_succ hk) hd hd'
      | succ i =>
        refine hkeeps.consecutive i j f f' (Nat.lt_of_succ_lt_succ hij) hf hf' hpos hpos' ?_ ?_
        · intro k g hik hkj hg
          exact hzero (k + 1) g (Nat.succ_lt_succ hik) (Nat.succ_lt_succ hkj) hg
        · intro k d d' hik hkj hd hd'
          exact hseq (k + 1) d d' (Nat.succ_le_succ hik) (Nat.succ_lt_succ hkj) hd hd'

omit hin in
theorem along_within (hrun : run cfg s calls = .ok es)
    (hlimit : List.Forall₂ (fun c e => 0 < e.2 → e.1 + e.2 ≤ c.limit) calls es) :
    Along cfg (Within cfg) s calls := by
  induction calls generalizing s es with
  | nil => trivial
  | cons c calls ih =>
    obtain ⟨t, e, es', hup, hrest, rfl⟩ := run_cons_eq_ok.mp hrun
    obtain ⟨hout, hfits'⟩ := hfits.first hcfg hup
    obtain ⟨hfirst, hlimit'⟩ := forall₂_cons.mp hlimit
    refine ⟨hout.limit_iff.mp hfirst, ?_⟩
    intro r hr
    rw [hup] at hr
    cases hr
    exact ih hfits' hrest hlimit'

end

/-- In a sequence of calls whose read-aheads have room in 64 bits no assertion fails, and the
extents stay within the limits and follow each other, exactly when no read-ahead is due at a
position beyond the limit of its call. -/
theorem run_keeps_iff (cfg : Settings) (calls : List Call) (hcfg : cfg.Positive)
    (hin : ∀ c ∈ calls, c.Inside) (hfits : Along cfg (Fits cfg) .init calls) :
    (∃ es, run cfg .init calls = .ok es ∧ Keeps calls es) ↔
      Along cfg (Within cfg) .init calls := by
  constructor
  · rintro ⟨es, hrun, hkeeps⟩
    exact along_within hcfg hfits hrun hkeeps.limit
  · intro hwithin
    exact run_keeps hcfg hin hfits hwithin

/-- Read-ahead from the first read on, with ends on multiples of `alignment`. -/
def eager (alignment : ℕ) : Settings := ⟨1, 1, 2 ^ 64 - 1, [alignment]⟩

theorem eager_positive {alignment} (hpos : 0 < alignment) (hless : alignment < 2 ^ 64) :
    (eager alignment).Positive :=
  ⟨Nat.one_pos, show 0 < 2 ^ 64 - 1 by decide, by simpa [eager] using ⟨hpos, hless⟩⟩

def growingReads : List Call := [⟨0, 100, 1000⟩, ⟨100, 100, 1000⟩, ⟨200, 100, 1100⟩]

theorem run_keeps_iff_growing :
    (eager 64).Positive ∧ (∀ c ∈ growingReads, c.Inside) ∧
    Along (eager 64) (Fits (eager 64)) .init growingReads ∧
    ((∃ es, run (eager 64) .init growingReads = .ok es ∧ Keeps growingReads es) ↔
      Along (eager 64) (Within (eager 64)) .init growingReads) :=
  have hcfg := eager_positive (by decide) (by decide)
  ⟨hcfg, by decide, by decide +kernel, run_keeps_iff _ _ hcfg (by decide) (by decide +kernel)⟩

/-- The file is cut to 300 bytes before the third read, when 400 have been read ahead: the length
of the next read-ahead wraps. And a read-ahead at 2^63 of as many bytes wraps its end to zero. -/
theorem update_limit_wraps :
    (let calls : List Call := [⟨0, 100, 1000⟩, ⟨100, 100, 1000⟩, ⟨200, 100, 300⟩]
     (eager 1000).Positive ∧ (∀ c ∈ calls, c.Inside) ∧
     run (eager 1000) .init calls = .ok [(100, 100), (200, 200), (400, 2 ^ 64 - 100)]) ∧
    (let call : Call := ⟨0, 2 ^ 63, 2 ^ 64 - 1⟩
     (eager 4096).Positive ∧ call.Inside ∧
     run (eager 4096) .init [call] = .error .assertion) :=
  ⟨⟨eager_positive (by decide) (by decide), by decide, by rfl⟩,
    eager_positive (by decide) (by decide), by decide, by rfl⟩

end CephDokan.Readahead
