import CephDokan.Msg.Dispatch

/-!
# Throttles of incoming messages balance

Everything that can hold something of a throttle is listed with what it holds: readers by how far
they have come, messages by their lengths, and a dispatch that is going on by what it will release.
A messenger is balanced when the counters are the sums of these, the sizes that were computed are
the true ones, and messages that wait for a dispatcher carry them. `Balanced.exec_iff` says
exactly which events keep that.
-/

namespace CephDokan.Msg

open Fallible Throttle List Message

/-! ### Who holds what -/

/-- So much of a policy's throttle, if there is one. -/
def policyHolds (t : Option ℕ) (n : ℕ) : ThrottleId → ℕ :=
  match t with
  | none => 0
  | some i => Pi.single (.policy i) n

namespace Message

variable (m : Message)

def bytes : ℕ := m.payload.toNat + m.middle.toNat + m.data.toNat

/-- What the destructor gives back. -/
def lifelong : ThrottleId → ℕ :=
  policyHolds m.byteThrottler m.bytes + policyHolds m.msgThrottler 1

def holds : ThrottleId → ℕ :=
  m.lifelong + Pi.single .dispatch m.dispatchThrottleSize

/-- The sum of the lengths is right in 32 bits, where it is used. -/
def Fits : Prop := m.byteThrottler ≠ none → m.bytes < 2 ^ 32

def Recorded : Prop := m.wire = true → m.dispatchThrottleSize = m.bytes

end Message

def Reading.holds (r : Reading) : ThrottleId → ℕ :=
  match r.stage with
  | .messages => 0
  | .bytes => policyHolds r.policy.throttlerMessages 1
  | .dispatch =>
    policyHolds r.policy.throttlerMessages 1 + policyHolds r.policy.throttlerBytes r.header.total
  | .ready =>
    policyHolds r.policy.throttlerMessages 1 + policyHolds r.policy.throttlerBytes r.header.total
      + Pi.single .dispatch r.header.total

/-- The throttle that is next, and how much of it. -/
def Reading.wants (r : Reading) : Option (ThrottleId × ℕ) :=
  match r.stage with
  | .messages => r.policy.throttlerMessages.map fun i => (.policy i, 1)
  | .bytes =>
    if r.messageSize ≠ 0 then r.policy.throttlerBytes.map fun i => (.policy i, r.messageSize)
    else none
  | .dispatch => some (.dispatch, r.messageSize)
  | .ready => none

namespace Messenger

def owed (s : Messenger) : ThrottleId → ℕ :=
  (s.readings.map Reading.holds).sum + (s.delayed.map fun e => e.2.holds).sum
    + (s.queue.map fun e => e.2.holds).sum + (s.dispatching.map (Pi.single .dispatch)).sum
    + (s.held.map lifelong).sum

structure Balanced (s : Messenger) : Prop where
  owed : Owed s.throttles s.owed
  sizes : ∀ r ∈ s.readings, r.messageSize = r.header.total ∧ r.header.total < 2 ^ 32
  waiting : ∀ e ∈ s.delayed ++ s.queue, e.2.Recorded ∧ e.2.Fits
  held : ∀ m ∈ s.held, m.Fits

/-- The events that keep the balance: a header whose lengths add up to less than `2 ^ 32`; a reader
that waits or takes what the counter has room for; a delayed message that is not dropped by a
stopped fast dispatch; and a message that does not leave the queue, with something recorded, after
the stop. -/
def Sound (s : Messenger) : Event → Prop
  | .begin _ header _ => header.total < 2 ^ 32
  | .throttle i => ∀ r ∈ s.readings[i]?, ∀ w ∈ r.wants,
      (s.throttles w.1).shouldWait w.2 = false → Room s.throttles w.1 w.2
  | .delayDeliver conn => ∀ e ∈ s.delayed.find? (fun e => e.1 = conn), e.2.fast = true →
      (s.pipes conn).stopFastDispatching = true → ∀ i, (s.throttles i).max ≠ 0 → e.2.holds i = 0
  | .dequeue i => ∀ e ∈ s.queue[i]?, s.stop = true → (s.throttles .dispatch).max ≠ 0 →
      e.2.dispatchThrottleSize = 0
  | _ => True

end Messenger

/-! ### Sums -/

theorem Header.messageSize_eq_iff (h : Header) : h.messageSize = h.total ↔ h.total < 2 ^ 32 := by
  have hwrap : h.messageSize = h.total % 2 ^ 32 := by
    rw [messageSize, UInt32.toNat_add, UInt32.toNat_add, Nat.mod_add_mod, total]
  rw [hwrap, Nat.mod_eq_iff_lt (by decide)]

theorem Message.length_eq {m : Message} (h : m.bytes < 2 ^ 32) :
    (m.payload + m.middle + m.data).toNat = m.bytes := by
  rw [UInt32.toNat_add, UInt32.toNat_add, Nat.mod_add_mod]
  exact Nat.mod_eq_of_lt h

section Sums

variable {γ : Type} (f : γ → ThrottleId → ℕ) {l : List γ} {x : γ} {i : ℕ}

theorem sum_eraseIdx (h : l[i]? = some x) : (l.map f).sum = f x + ((l.eraseIdx i).map f).sum := by
  obtain ⟨hlt, rfl⟩ := List.getElem?_eq_some_iff.mp h
  exact ((getElem_cons_eraseIdx_perm hlt).symm.map f).sum_eq

theorem sum_eraseP {p} (h : l.find? p = some x) :
    (l.map f).sum = f x + ((l.eraseP p).map f).sum := by
  induction l with
  | nil => cases h
  | cons y l ih =>
    rw [find?_cons] at h
    cases hy : p y with
    | true =>
      rw [hy] at h
      cases h
      rw [eraseP_cons_of_pos hy, map_cons, sum_cons]
    | false =>
      rw [hy] at h
      rw [eraseP_cons_of_neg (by rw [hy]; exact Bool.false_ne_true), map_cons,
        sum_cons, ih h, map_cons, sum_cons, add_left_comm]

theorem sum_filter (p : γ → Bool) :
    (l.map f).sum = ((l.filter p).map f).sum + ((l.filter fun x => !p x).map f).sum := by
  rw [← sum_append, ← map_append]
  exact ((filter_append_perm p l).symm.map f).sum_eq

end Sums

/-! ### Giving back what is held -/

section Giving

variable {ts : Throttles} {d : ThrottleId → ℕ} {c : ℕ} {r : Reading}

theorem giveTo_owed {t} (h : Owed ts (d + policyHolds t c)) :
    ∃ ts', giveTo ts t c = .ok ts' ∧ Owed ts' d ∧ ∀ i, (ts' i).max = (ts i).max := by
  cases t with
  | none => exact ⟨ts, rfl, h, fun _ => rfl⟩
  | some i => exact Owed.give h

theorem dispatchThrottleRelease_owed (h : Owed ts (d + Pi.single .dispatch c)) :
    ∃ ts', dispatchThrottleRelease ts c = .ok ts' ∧ Owed ts' d := by
  rw [dispatchThrottleRelease]
  split_ifs with hc
  · obtain ⟨ts', hrun, h', -⟩ := Owed.give h
    exact ⟨ts', hrun, h'⟩
  · rw [not_not.mp hc, Pi.single_zero, add_zero] at h
    exact ⟨ts, rfl, h⟩

theorem Message.destroy_owed {m : Message} (hm : m.Fits) (h : Owed ts (d + m.lifelong)) :
    ∃ ts', m.destroy ts = .ok ts' ∧ Owed ts' d ∧ ∀ i, (ts' i).max = (ts i).max := by
  have hbytes : policyHolds m.byteThrottler m.bytes
      = policyHolds m.byteThrottler (m.payload + m.middle + m.data).toNat := by
    cases ht : m.byteThrottler with
    | none => rfl
    | some i => rw [length_eq (hm (by rw [ht]; exact Option.some_ne_none i))]
  rw [lifelong, add_comm (policyHolds _ _), ← add_assoc, hbytes] at h
  obtain ⟨ts1, hrun1, h1, hmax1⟩ := giveTo_owed h
  obtain ⟨ts2, hrun2, h2, hmax2⟩ := giveTo_owed h1
  refine ⟨ts2, ?_, h2, fun i => (hmax2 i).trans (hmax1 i)⟩
  rw [destroy, hrun1, ok_bind, hrun2]

theorem Message.discard_owed {m : Message} (hm : m.Fits) (h : Owed ts (d + m.holds)) :
    ∃ ts', m.discard ts = .ok ts' ∧ Owed ts' d := by
  rw [holds, ← add_assoc] at h
  obtain ⟨ts1, hrun1, h1⟩ := dispatchThrottleRelease_owed h
  obtain ⟨ts2, hrun2, h2, -⟩ := m.destroy_owed hm h1
  refine ⟨ts2, ?_, h2⟩
  rw [discard, hrun1, ok_bind, hrun2]

theorem discardAll_owed {ms : List Message} (hms : ∀ m ∈ ms, m.Fits)
    (h : Owed ts (d + (ms.map holds).sum)) :
    ∃ ts', Messenger.discardAll ms ts = .ok ts' ∧ Owed ts' d := by
  induction ms generalizing ts with
  | nil =>
    exact ⟨ts, rfl, h⟩
  | cons m ms ih =>
    rw [map_cons, sum_cons, add_comm m.holds, ← add_assoc] at h
    obtain ⟨ts1, hrun1, h1⟩ := m.discard_owed (hms m mem_cons_self) h
    obtain ⟨ts2, hrun2, h2⟩ := ih (fun n hn => hms n (mem_cons_of_mem _ hn)) h1
    refine ⟨ts2, ?_, h2⟩
    rw [Messenger.discardAll, foldlM_cons, hrun1, ok_bind]
    exact hrun2

theorem policyHolds_zero (t : Option ℕ) : policyHolds t 0 = 0 := by
  cases t with
  | none => rfl
  | some i => exact Pi.single_zero _

theorem Reading.dethrottle_owed (hsize : r.messageSize = r.header.total)
    (hready : r.stage = .ready) (h : Owed ts (d + r.holds)) :
    ∃ ts', r.dethrottle ts = .ok ts' ∧ Owed ts' d := by
  have hholds : d + r.holds = d + Pi.single .dispatch r.messageSize
      + policyHolds r.policy.throttlerBytes r.messageSize
      + policyHolds r.policy.throttlerMessages 1 := by
    simp only [Reading.holds, hready, hsize]
    abel
  rw [hholds] at h
  obtain ⟨ts1, hrun1, h1, -⟩ := giveTo_owed h
  obtain ⟨ts2, hrun2, h2, -⟩ := giveTo_owed h1
  obtain ⟨ts3, hrun3, h3⟩ := dispatchThrottleRelease_owed h2
  rw [dethrottle, hrun1, ok_bind]
  split_ifs with hzero
  · refine ⟨ts3, ?_, h3⟩
    rw [hrun2, ok_bind, hrun3]
  · -- an empty message takes nothing but its place among the messages
    refine ⟨ts1, rfl, ?_⟩
    rwa [not_not.mp hzero, policyHolds_zero, Pi.single_zero, add_zero, add_zero] at h1

theorem Reading.getFrom_owed_iff {t} {next}
    (hnext : Reading.holds { r with stage := next } = r.holds + (t.elim 0 fun i => Pi.single i c))
    (h : Owed ts (d + r.holds)) :
    Owed (r.getFrom ts t c next).1 (d + (r.getFrom ts t c next).2.holds)
      ↔ ∀ i ∈ t, (ts i).shouldWait c = false → Room ts i c := by
  cases t with
  | none =>
    refine iff_of_true ?_ fun i hi => nomatch hi
    show Owed ts (d + Reading.holds { r with stage := next })
    rwa [hnext, Option.elim_none, add_zero]
  | some i =>
    simp only [getFrom, Option.mem_some_iff, forall_eq']
    split_ifs with hwait
    · exact iff_of_true h fun hno => absurd (hwait.symm.trans hno) (by decide)
    · rw [hnext, Option.elim_some, ← add_assoc, h.take_iff, forall_prop_of_true]
      exact Bool.not_eq_true _ ▸ hwait

theorem policyHolds_eq (t : Option ℕ) (c : ℕ) :
    policyHolds t c = (t.map ThrottleId.policy).elim 0 fun i => Pi.single i c := by
  cases t <;> rfl

/-- The reader goes on to the next stage or waits, and is owed what it took, when there was room. -/
theorem Reading.throttle_owed_iff (hsize : r.messageSize = r.header.total)
    (h : Owed ts (d + r.holds)) :
    Owed (r.throttle ts).1 (d + (r.throttle ts).2.holds)
      ↔ ∀ w ∈ r.wants, (ts w.1).shouldWait w.2 = false → Room ts w.1 w.2 := by
  rw [throttle, wants]
  cases hstage : r.stage with
  | messages =>
    refine (Reading.getFrom_owed_iff ?_ h).trans (by simp)
    rw [← policyHolds_eq]
    simp only [Reading.holds, hstage, zero_add]
  | bytes =>
    dsimp only
    split_ifs with hzero
    · refine (Reading.getFrom_owed_iff ?_ h).trans (by simp)
      rw [← policyHolds_eq]
      simp only [Reading.holds, hstage, hsize]
    · -- nothing to take, and nothing is counted
      have htotal : r.header.total = 0 := hsize ▸ not_not.mp hzero
      refine iff_of_true ?_ fun w hw => nomatch hw
      simpa only [Reading.holds, hstage, htotal, policyHolds_zero, Pi.single_zero, add_zero] using h
  | dispatch =>
    refine (Reading.getFrom_owed_iff ?_ h).trans (by simp)
    simp only [Reading.holds, hstage, hsize, Option.elim_some]
  | ready => exact iff_of_true h fun w hw => nomatch hw

theorem Reading.throttle_keeps (r : Reading) (ts : Throttles) :
    (r.throttle ts).2.messageSize = r.messageSize ∧ (r.throttle ts).2.header = r.header := by
  have hget (t c next) : (r.getFrom ts t c next).2.messageSize = r.messageSize
      ∧ (r.getFrom ts t c next).2.header = r.header := by
    cases t with
    | none => exact ⟨rfl, rfl⟩
    | some i =>
      simp only [getFrom]
      split_ifs <;> exact ⟨rfl, rfl⟩
  rw [throttle]
  split
  · exact hget _ _ _
  · split_ifs
    · exact hget _ _ _
    · exact ⟨rfl, rfl⟩
  · exact hget _ _ _
  · exact ⟨rfl, rfl⟩

end Giving

/-! ### A message on its way -/

namespace Messenger

/-- A thread has taken `m` out of a list and not put it anywhere yet. -/
structure Carrying (s : Messenger) (m : Message) : Prop where
  owed : Owed s.throttles (s.owed + m.holds)
  sizes : ∀ r ∈ s.readings, r.messageSize = r.header.total ∧ r.header.total < 2 ^ 32
  waiting : ∀ e ∈ s.delayed ++ s.queue, e.2.Recorded ∧ e.2.Fits
  held : ∀ m ∈ s.held, m.Fits
  message : m.Recorded ∧ m.Fits

variable {s : Messenger} {m : Message} {r : Reading} {evs : List Event}

theorem Balanced.take_reading (h : Balanced s) {i : ℕ} (hr : s.readings[i]? = some r)
    (hready : r.stage = .ready) :
    Carrying { s with readings := s.readings.eraseIdx i } r.message := by
  obtain ⟨hsize, htotal⟩ := h.sizes r (mem_of_getElem? hr)
  have hholds : r.holds = r.message.holds := by
    simp only [Reading.holds, hready, holds, lifelong, bytes, Reading.message, Header.total, hsize]
    abel
  refine ⟨?_, fun r hr => h.sizes r (mem_of_mem_eraseIdx hr), h.waiting, h.held, ?_, ?_⟩
  · have howed := h.owed
    rw [Messenger.owed, sum_eraseIdx _ hr, hholds] at howed
    convert howed using 1
    unfold Messenger.owed
    abel
  · exact fun _ => hsize
  · exact fun _ => htotal

variable {e : ℕ × Message}

theorem Balanced.take_queued (h : Balanced s) {i : ℕ} (he : s.queue[i]? = some e) :
    Carrying { s with queue := s.queue.eraseIdx i } e.2 := by
  refine ⟨?_, h.sizes, fun e he => ?_, h.held, ?_⟩
  · have howed := h.owed
    rw [Messenger.owed, sum_eraseIdx (fun e => e.2.holds) he] at howed
    convert howed using 1
    unfold Messenger.owed
    abel
  · exact h.waiting e (((eraseIdx_sublist _ i).append_left _).subset he)
  · exact h.waiting e (mem_append_right _ (mem_of_getElem? he))

theorem Balanced.take_delayed (h : Balanced s) {p}
    (he : s.delayed.find? p = some e) : Carrying { s with delayed := s.delayed.eraseP p } e.2 := by
  refine ⟨?_, h.sizes, fun e he => ?_, h.held, ?_⟩
  · have howed := h.owed
    rw [Messenger.owed, sum_eraseP (fun e => e.2.holds) he] at howed
    convert howed using 1
    unfold Messenger.owed
    abel
  · exact h.waiting e ((eraseP_sublist.append_right _).subset he)
  · exact h.waiting e (mem_append_left _ (mem_of_find?_eq_some he))

section

variable (h : Carrying s m)

include h

theorem Carrying.dispatch : Balanced (s.dispatch m) := by
  refine ⟨?_, h.sizes, h.waiting, fun n hn => ?_⟩
  · unfold Messenger.dispatch
    convert h.owed using 1
    unfold Messenger.owed
    simp only [map_cons, sum_cons, holds, lifelong, bytes]
    abel
  · rcases mem_cons.mp hn with rfl | hn
    · exact h.message.2
    · exact h.held n hn

theorem Carrying.enqueue (conn : ℕ) : Balanced (s.enqueue conn m) := by
  refine ⟨?_, h.sizes, fun e he => ?_, h.held⟩
  · unfold Messenger.enqueue
    convert h.owed using 1
    unfold Messenger.owed
    simp only [map_append, sum_append, map_cons, map_nil, sum_singleton]
    abel
  · simp only [Messenger.enqueue, mem_append, mem_singleton] at he
    rcases he with he | he | rfl
    · exact h.waiting e (mem_append_left _ he)
    · exact h.waiting e (mem_append_right _ he)
    · exact h.message

theorem Carrying.delay (conn : ℕ) : Balanced { s with delayed := s.delayed ++ [(conn, m)] } := by
  refine ⟨?_, h.sizes, fun e he => ?_, h.held⟩
  · convert h.owed using 1
    unfold Messenger.owed
    simp only [map_append, sum_append, map_cons, map_nil, sum_singleton]
    abel
  · simp only [mem_append, mem_singleton] at he
    rcases he with (he | rfl) | he
    · exact h.waiting e (mem_append_left _ he)
    · exact h.message
    · exact h.waiting e (mem_append_right _ he)

theorem Carrying.balanced_of_owed {ts : Throttles} (hts : Owed ts s.owed) :
    Balanced { s with throttles := ts } := ⟨hts, h.sizes, h.waiting, h.held⟩

theorem Carrying.discard :
    ∃ ts, m.discard s.throttles = .ok ts ∧ Balanced { s with throttles := ts } := by
  obtain ⟨ts, hrun, hts⟩ := m.discard_owed h.message.2 h.owed
  exact ⟨ts, hrun, h.balanced_of_owed hts⟩

theorem Carrying.balanced_iff : Balanced s ↔ ∀ i, (s.throttles i).max ≠ 0 → m.holds i = 0 := by
  have howed := h.owed.iff_eq s.owed
  constructor
  · intro hs i hmax
    have hi := howed.mp hs.owed i hmax
    rwa [Pi.add_apply, Nat.add_eq_left] at hi
  · intro hnone
    refine ⟨howed.mpr fun i hmax => ?_, h.sizes, h.waiting, h.held⟩
    rw [Pi.add_apply, hnone i hmax, Nat.add_zero]

/-! ### One event -/

theorem Carrying.receive (conn : ℕ) : Yields (s.receive conn m) Balanced := by
  have hpipes : Carrying
      { s with pipes := Function.update s.pipes conn { s.pipes conn with inSeq := m.seq } } m :=
    ⟨h.owed, h.sizes, h.waiting, h.held, h.message⟩
  rw [Messenger.receive]
  split_ifs
  · obtain ⟨ts, hrun, hbalanced⟩ := h.discard
    rw [hrun]
    exact ⟨_, rfl, hbalanced⟩
  · exact ⟨_, rfl, hpipes.delay conn⟩
  · exact ⟨_, rfl, hpipes.dispatch⟩
  · exact ⟨_, rfl, hpipes.enqueue conn⟩

theorem Carrying.deliverDelayed_iff (conn : ℕ) :
    Balanced (s.deliverDelayed conn m) ↔ (m.fast = true →
      (s.pipes conn).stopFastDispatching = true → ∀ i, (s.throttles i).max ≠ 0 →
        m.holds i = 0) := by
  rw [deliverDelayed]
  split_ifs with hfast hstop
  · rw [h.balanced_iff]
    exact ⟨fun hnone _ _ => hnone, fun hnone => hnone hfast hstop⟩
  · exact iff_of_true h.dispatch fun _ hs => absurd hs hstop
  · exact iff_of_true (h.enqueue conn) fun hf => absurd hf hfast

theorem Carrying.deliverQueued_iff :
    ∃ s', s.deliverQueued m = .ok s' ∧ (Balanced s' ↔ (s.stop = true →
      (s.throttles .dispatch).max ≠ 0 → m.dispatchThrottleSize = 0)) := by
  rw [deliverQueued]
  split_ifs with hstop
  · -- only the destructor gives something back
    have howed := h.owed
    rw [holds, add_comm m.lifelong, ← add_assoc] at howed
    obtain ⟨ts, hrun, hts, hmax⟩ := m.destroy_owed h.message.2 howed
    rw [hrun]
    refine ⟨_, rfl, ?_⟩
    have hiff := hts.iff_eq s.owed
    constructor
    · intro hs _ hdispatch
      have hi := hiff.mp hs.owed .dispatch (by rwa [hmax])
      rwa [Pi.add_apply, Pi.single_eq_same, Nat.add_eq_left] at hi
    · intro hzero
      apply h.balanced_of_owed
      apply hiff.mpr
      intro i hi
      rw [hmax] at hi
      by_cases hid : i = .dispatch
      · rw [hid] at hi ⊢
        rw [Pi.add_apply, Pi.single_eq_same, hzero hstop hi, Nat.add_zero]
      · rw [Pi.add_apply, Pi.single_eq_of_ne hid, Nat.add_zero]
  · exact ⟨_, rfl, iff_of_true h.dispatch fun hs => absurd hs hstop⟩

end

section

variable (h : Balanced s)

include h

theorem Balanced.begin_iff (r : Reading) (hstage : r.stage = .messages)
    (hsize : r.messageSize = r.header.messageSize) :
    Balanced { s with readings := r :: s.readings } ↔ r.header.total < 2 ^ 32 := by
  constructor
  · intro hs
    exact (hs.sizes r mem_cons_self).2
  · intro hfits
    refine ⟨?_, fun r' hr => ?_, h.waiting, h.held⟩
    · convert h.owed using 1
      unfold Messenger.owed
      rw [map_cons, sum_cons, Reading.holds, hstage, zero_add]
    · rcases mem_cons.mp hr with rfl | hr
      · exact ⟨hsize.trans (r'.header.messageSize_eq_iff.mpr hfits), hfits⟩
      · exact h.sizes r' hr

theorem Balanced.owed_reading {i : ℕ} (hr : s.readings[i]? = some r) :
    Owed s.throttles (Messenger.owed { s with readings := s.readings.eraseIdx i } + r.holds) := by
  convert h.owed using 1
  unfold Messenger.owed
  rw [sum_eraseIdx _ hr]
  abel

theorem Balanced.throttle_iff (i : ℕ) :
    ∃ s', s.exec (.throttle i) = .ok s' ∧ (Balanced s' ↔ s.Sound (.throttle i)) := by
  simp only [exec, Sound]
  cases hr : s.readings[i]? with
  | none => exact ⟨s, rfl, iff_of_true h fun r hr => nomatch hr⟩
  | some r =>
    obtain ⟨hsize, htotal⟩ := h.sizes r (mem_of_getElem? hr)
    obtain ⟨hsize', hheader⟩ := r.throttle_keeps s.throttles
    have howed := r.throttle_owed_iff hsize (h.owed_reading hr)
    have hsum : Messenger.owed { s with
        throttles := (r.throttle s.throttles).1
        readings := (r.throttle s.throttles).2 :: s.readings.eraseIdx i }
        = Messenger.owed { s with readings := s.readings.eraseIdx i }
          + (r.throttle s.throttles).2.holds := by
      unfold Messenger.owed
      rw [map_cons, sum_cons]
      abel
    simp only [Option.mem_some_iff, forall_eq']
    rw [← howed, ← hsum]
    refine ⟨_, rfl, fun hs => hs.owed, fun hs => ⟨hs, fun r' hr' => ?_, h.waiting, h.held⟩⟩
    rcases mem_cons.mp hr' with rfl | hr'
    · rw [hsize', hheader]
      exact ⟨hsize, htotal⟩
    · exact h.sizes r' (mem_of_mem_eraseIdx hr')

theorem Balanced.fail (i : ℕ) : Yields (s.exec (.fail i)) Balanced := by
  simp only [exec]
  cases hr : s.readings[i]? with
  | none => exact ⟨s, rfl, h⟩
  | some r =>
    dsimp only
    split_ifs with hready
    · obtain ⟨hsize, -⟩ := h.sizes r (mem_of_getElem? hr)
      obtain ⟨ts, hrun, hts⟩ := r.dethrottle_owed hsize hready (h.owed_reading hr)
      rw [hrun]
      exact ⟨_, rfl, hts, fun r hr => h.sizes r (mem_of_mem_eraseIdx hr), h.waiting, h.held⟩
    · exact ⟨s, rfl, h⟩

theorem Balanced.arrive (i : ℕ) : Yields (s.exec (.arrive i)) Balanced := by
  simp only [exec]
  cases hr : s.readings[i]? with
  | none => exact ⟨s, rfl, h⟩
  | some r =>
    dsimp only
    split_ifs with hready
    · exact (h.take_reading hr hready).receive r.conn
    · exact ⟨s, rfl, h⟩

/-- The messages of a connection in one of the two lists are discarded, where `rest` is all else
that is owed. -/
theorem Balanced.discardAll (conn : ℕ) {rest} {l : List (ℕ × Message)}
    (hl : ∀ e ∈ l, e ∈ s.delayed ++ s.queue)
    (hsum : s.owed = rest + (l.map fun e => e.2.holds).sum) :
    ∃ ts, Messenger.discardAll ((l.filter fun e => e.1 = conn).map Prod.snd) s.throttles = .ok ts
      ∧ Owed ts (rest + ((l.filter fun e => e.1 ≠ conn).map fun e => e.2.holds).sum) := by
  apply discardAll_owed
  · intro m hm
    obtain ⟨e, he, rfl⟩ := mem_map.mp hm
    exact (h.waiting e (hl e (mem_of_mem_filter he))).2
  · have howed := h.owed
    rw [hsum, sum_filter (fun e : ℕ × Message => e.2.holds) fun e => e.1 = conn] at howed
    rw [map_map, add_assoc, add_comm (sum _)]
    simpa only [decide_not, Function.comp_def] using howed

theorem Balanced.delayDiscard (conn : ℕ) : Yields (s.exec (.delayDiscard conn)) Balanced := by
  have hsum (l : List (ℕ × Message)) : Messenger.owed { s with delayed := l }
      = Messenger.owed { s with delayed := [] } + (l.map fun e => e.2.holds).sum := by
    simp only [Messenger.owed, map_nil, sum_nil]
    abel
  obtain ⟨ts, hrun, hts⟩ := h.discardAll conn (fun e he => mem_append_left _ he)
    (hsum s.delayed)
  rw [← hsum] at hts
  simp only [exec, hrun, ok_bind]
  exact ⟨_, rfl, hts, h.sizes,
    fun e he => h.waiting e ((filter_sublist.append_right _).subset he), h.held⟩

theorem Balanced.discardQueue (conn : ℕ) : Yields (s.exec (.discardQueue conn)) Balanced := by
  have hsum (l : List (ℕ × Message)) : Messenger.owed { s with queue := l }
      = Messenger.owed { s with queue := [] } + (l.map fun e => e.2.holds).sum := by
    simp only [Messenger.owed, map_nil, sum_nil]
    abel
  obtain ⟨ts, hrun, hts⟩ := h.discardAll conn (fun e he => mem_append_right _ he)
    (hsum s.queue)
  rw [← hsum] at hts
  simp only [exec, hrun, ok_bind]
  exact ⟨_, rfl, hts, h.sizes,
    fun e he => h.waiting e ((filter_sublist.append_left _).subset he), h.held⟩

theorem Balanced.stealDelay (conn new : ℕ) :
    Balanced { s with delayed := s.delayed.map fun e => if e.1 = conn then (new, e.2) else e } := by
  have hsnd (e : ℕ × Message) : (if e.1 = conn then (new, e.2) else e).2 = e.2 := by
    split_ifs <;> rfl
  refine ⟨?_, h.sizes, fun e he => ?_, h.held⟩
  · have howed := h.owed
    unfold Messenger.owed at howed ⊢
    rw [map_map]
    simpa only [Function.comp_def, hsnd] using howed
  · rcases mem_append.mp he with he | he
    · obtain ⟨e', he', rfl⟩ := mem_map.mp he
      rw [hsnd]
      exact h.waiting e' (mem_append_left _ he')
    · exact h.waiting e (mem_append_right _ he)

theorem Balanced.carrying_local (fast : Bool) (payload middle data : UInt32) :
    Carrying s ⟨0, fast, false, payload, middle, data, none, none, 0⟩ := by
  refine ⟨?_, h.sizes, h.waiting, h.held, (fun hwire => nomatch hwire),
    fun hnone => absurd rfl hnone⟩
  have hnone : holds ⟨0, fast, false, payload, middle, data, none, none, 0⟩ = 0 := by
    simp only [holds, lifelong, policyHolds, Pi.single_zero, add_zero]
  rw [hnone, add_zero]
  exact h.owed

theorem Balanced.postDispatch (i : ℕ) : Yields (s.exec (.postDispatch i)) Balanced := by
  simp only [exec]
  cases hi : s.dispatching[i]? with
  | none => exact ⟨s, rfl, h⟩
  | some msize =>
    have hsum : s.owed = Messenger.owed { s with dispatching := s.dispatching.eraseIdx i }
        + Pi.single .dispatch msize := by
      unfold Messenger.owed
      rw [sum_eraseIdx (Pi.single ThrottleId.dispatch) hi]
      abel
    obtain ⟨ts, hrun, hts⟩ := dispatchThrottleRelease_owed (hsum.subst h.owed)
    dsimp only
    rw [hrun]
    exact ⟨_, rfl, hts, h.sizes, h.waiting, h.held⟩

theorem Balanced.owed_held {i : ℕ} (hm : s.held[i]? = some m) :
    Owed s.throttles (Messenger.owed { s with held := s.held.eraseIdx i } + m.lifelong) := by
  convert h.owed using 1
  unfold Messenger.owed
  rw [sum_eraseIdx _ hm]
  abel

theorem Balanced.clear {i c : ℕ} (hm : s.held[i]? = some m) {m'} (hfits : m'.Fits)
    (hpart : m.lifelong = m'.lifelong + policyHolds m.byteThrottler c) : ∃ s', (do
        return { s with
          throttles := ← giveTo s.throttles m.byteThrottler c
          held := m' :: s.held.eraseIdx i } : Run Messenger) = .ok s' ∧ Balanced s' := by
  have howed := h.owed_held hm
  rw [hpart, ← add_assoc] at howed
  obtain ⟨ts, hrun, hts, -⟩ := giveTo_owed howed
  rw [hrun]
  refine ⟨_, rfl, ?_, h.sizes, h.waiting, fun n hn => ?_⟩
  · convert hts using 1
    unfold Messenger.owed
    rw [map_cons, sum_cons]
    abel
  · rcases mem_cons.mp hn with rfl | hn
    · exact hfits
    · exact h.held n (mem_of_mem_eraseIdx hn)

end

theorem policyHolds_add (t : Option ℕ) (a b : ℕ) :
    policyHolds t (a + b) = policyHolds t a + policyHolds t b := by
  cases t with
  | none => rfl
  | some i => exact Pi.single_add (f := fun _ => ℕ) (ThrottleId.policy i) a b

theorem Balanced.clearPayload (h : Balanced s) (i : ℕ) :
    Yields (s.exec (.clearPayload i)) Balanced := by
  simp only [exec]
  cases hm : s.held[i]? with
  | none => exact ⟨s, rfl, h⟩
  | some m =>
    have hfits := h.held m (mem_of_getElem? hm)
    apply h.clear hm
    · intro hb
      have hbytes := hfits hb
      simp only [bytes, UInt32.toNat_zero] at hbytes ⊢
      omega
    · cases ht : m.byteThrottler with
      | none => simp only [lifelong, ht, policyHolds, add_zero]
      | some t =>
        have hbytes := hfits (by rw [ht]; exact Option.some_ne_none t)
        have hlength : (m.payload + m.middle).toNat = m.payload.toNat + m.middle.toNat := by
          rw [bytes] at hbytes
          rw [UInt32.toNat_add, Nat.mod_eq_of_lt (by omega)]
        have hsplit : m.bytes
            = bytes { m with payload := 0, middle := 0 } + (m.payload + m.middle).toNat := by
          simp only [bytes, UInt32.toNat_zero]
          omega
        simp only [lifelong, hsplit, policyHolds_add, ht]
        abel

theorem Balanced.clearData (h : Balanced s) (i : ℕ) : Yields (s.exec (.clearData i)) Balanced := by
  simp only [exec]
  cases hm : s.held[i]? with
  | none => exact ⟨s, rfl, h⟩
  | some m =>
    have hsplit : m.bytes = bytes { m with data := 0 } + m.data.toNat := rfl
    apply h.clear hm
    · intro hb
      have hbytes := h.held m (mem_of_getElem? hm) hb
      omega
    · simp only [lifelong, hsplit, policyHolds_add]
      abel

theorem Balanced.drop (h : Balanced s) (i : ℕ) : Yields (s.exec (.drop i)) Balanced := by
  simp only [exec]
  cases hm : s.held[i]? with
  | none => exact ⟨s, rfl, h⟩
  | some m =>
    obtain ⟨ts, hrun, hts, -⟩ := m.destroy_owed (h.held m (mem_of_getElem? hm)) (h.owed_held hm)
    dsimp only
    rw [hrun]
    exact ⟨_, rfl, hts, h.sizes, h.waiting, fun n hn => h.held n (mem_of_mem_eraseIdx hn)⟩

/-- What an event does to a balanced messenger: it happens without an assertion that fails, and
the balance is kept by exactly the sound events. -/
theorem Balanced.exec_iff (h : Balanced s) (ev : Event) :
    ∃ s', s.exec ev = .ok s' ∧ (Balanced s' ↔ s.Sound ev) := by
  have keeps {run : Run Messenger} (hrun : Yields run Balanced) :
      ∃ s', run = .ok s' ∧ (Balanced s' ↔ True) := by simpa using hrun
  cases ev with
  | begin conn header fast => exact ⟨_, rfl, h.begin_iff _ rfl rfl⟩
  | throttle i => exact h.throttle_iff i
  | fail i => exact keeps (h.fail i)
  | arrive i => exact keeps (h.arrive i)
  | delayDeliver conn =>
    simp only [exec, Sound]
    cases he : s.delayed.find? fun e => e.1 = conn with
    | none => exact ⟨s, rfl, iff_of_true h fun e he => nomatch he⟩
    | some e =>
      refine ⟨_, rfl, ((h.take_delayed he).deliverDelayed_iff conn).trans ?_⟩
      simp only [Option.mem_some_iff, forall_eq']
  | delayDiscard conn => exact keeps (h.delayDiscard conn)
  | stealDelay conn new => exact keeps ⟨_, rfl, h.stealDelay conn new⟩
  | pipeState conn state | stopFastDispatching conn | shutdown =>
    exact keeps ⟨_, rfl, h.owed, h.sizes, h.waiting, h.held⟩
  | localDelivery fast payload middle data =>
    have hcarry := h.carrying_local fast payload middle data
    refine keeps ⟨_, rfl, ?_⟩
    split_ifs
    · exact hcarry.dispatch
    · exact hcarry.enqueue 0
  | dequeue i =>
    simp only [exec, Sound]
    cases he : s.queue[i]? with
    | none => exact ⟨s, rfl, iff_of_true h fun e he => nomatch he⟩
    | some e =>
      obtain ⟨s', hrun, hs⟩ := (h.take_queued he).deliverQueued_iff
      refine ⟨s', hrun, hs.trans ?_⟩
      simp only [Option.mem_some_iff, forall_eq']
  | postDispatch i => exact keeps (h.postDispatch i)
  | discardQueue conn => exact keeps (h.discardQueue conn)
  | clearPayload i => exact keeps (h.clearPayload i)
  | clearData i => exact keeps (h.clearData i)
  | drop i => exact keeps (h.drop i)

/-! ### Whole runs -/

/-- The messenger is balanced now and after each of these events, none of which fails. -/
def Stays (s : Messenger) : List Event → Prop
  | [] => Balanced s
  | ev :: evs => Balanced s ∧ ∃ s', s.exec ev = .ok s' ∧ s'.Stays evs

def SoundRun (s : Messenger) : List Event → Prop
  | [] => True
  | ev :: evs => s.Sound ev ∧ ∀ s', s.exec ev = .ok s' → s'.SoundRun evs

def Idle (s : Messenger) : Prop :=
  s.readings = [] ∧ s.delayed = [] ∧ s.queue = [] ∧ s.dispatching = [] ∧ s.held = []

theorem Idle.balanced_iff (h : Idle s) : Balanced s ↔ ∀ i, (s.throttles i).count = 0 := by
  obtain ⟨hreadings, hdelayed, hqueue, hdispatching, hheld⟩ := h
  have hnone : s.owed = 0 := by
    rw [Messenger.owed, hreadings, hdelayed, hqueue, hdispatching, hheld]
    rfl
  constructor
  · intro hs i
    rw [← UInt32.toNat_inj, hs.owed i, hnone]
    exact ite_self 0
  · intro hcount
    refine ⟨fun i => ?_, ?_, ?_, ?_⟩
    · rw [hcount, hnone]
      exact (ite_self 0).symm
    · simp only [hreadings, not_mem_nil, false_implies, implies_true]
    · simp only [hdelayed, hqueue, append_nil, not_mem_nil, false_implies, implies_true]
    · simp only [hheld, not_mem_nil, false_implies, implies_true]

def run (s : Messenger) (evs : List Event) : Run Messenger := evs.foldlM exec s

theorem Balanced.stays_iff (h : Balanced s) : s.Stays evs ↔ s.SoundRun evs := by
  induction evs generalizing s with
  | nil => exact iff_of_true h trivial
  | cons ev evs ih =>
    obtain ⟨s', hrun, hs⟩ := h.exec_iff ev
    constructor
    · rintro ⟨-, t, ht, hstays⟩
      cases hrun.symm.trans ht
      have hbalanced : Balanced s' := by
        cases evs with
        | nil => exact hstays
        | cons => exact hstays.1
      refine ⟨hs.mp hbalanced, fun t ht => ?_⟩
      cases hrun.symm.trans ht
      exact (ih hbalanced).mp hstays
    · rintro ⟨hsound, hrest⟩
      exact ⟨h, s', hrun, (ih (hs.mpr hsound)).mpr (hrest s' hrun)⟩

theorem Stays.run_eq (h : s.Stays evs) : Yields (s.run evs) Balanced := by
  induction evs generalizing s with
  | nil => exact ⟨s, rfl, h⟩
  | cons ev evs ih =>
    obtain ⟨-, t, ht, hstays⟩ := h
    obtain ⟨s', hrun, hs⟩ := ih hstays
    refine ⟨s', ?_, hs⟩
    rw [run, foldlM_cons, ht, ok_bind]
    exact hrun

/-- From a start where nothing is counted, the throttles are taken, recorded and released as they
should be through exactly those runs whose events are sound; when such a run has dealt with every
message, nothing is counted again. -/
theorem throttles_balance (hidle : Idle s) (hcount : ∀ i, (s.throttles i).count = 0)
    (evs : List Event) :
    (s.Stays evs ↔ s.SoundRun evs)
      ∧ (s.SoundRun evs → ∃ s', s.run evs = .ok s'
          ∧ (Idle s' → ∀ i, (s'.throttles i).count = 0)) := by
  have hstart : Balanced s := hidle.balanced_iff.mpr hcount
  refine ⟨hstart.stays_iff, fun hsound => ?_⟩
  obtain ⟨s', hrun, hs⟩ := (hstart.stays_iff.mpr hsound).run_eq
  exact ⟨s', hrun, fun hidle' => hidle'.balanced_iff.mp hs⟩

/-- Throttles of a hundred, and pipes with a byte and a message throttle and perhaps a delay
thread. -/
def started (delayThread : Bool) : Messenger where
  throttles _ := ⟨100, 0⟩
  pipes _ := ⟨.opened, 0, ⟨some 0, some 1⟩, delayThread, false⟩
  readings := []
  delayed := []
  queue := []
  dispatching := []
  held := []
  stop := false

def readThree (fast : Bool) : List Event :=
  [.begin 0 ⟨1, 1, 1, 1⟩ fast, .throttle 0, .throttle 0, .throttle 0, .arrive 0]

theorem SoundRun.cons {ev} {s'} (hsound : s.Sound ev)
    (hrun : s.exec ev = .ok s') (h : s'.SoundRun evs) : s.SoundRun (ev :: evs) :=
  ⟨hsound, fun _ ht => Except.ok.inj (hrun.symm.trans ht) ▸ h⟩

/-- A message that is read, queued, dispatched and dropped. -/
theorem throttles_balance_three :
    (started false).Stays (readThree false ++ [.dequeue 0, .postDispatch 0, .drop 0]) := by
  apply (throttles_balance ⟨rfl, rfl, rfl, rfl, rfl⟩ (fun _ => rfl) _).1.mpr
  refine .cons (by decide : 3 < 2 ^ 32) rfl ?_
  have hroom {s : Messenger} {r} {w} (hr : s.readings[0]? = some r) (hw : r.wants = some w)
      (hroom : (s.throttles w.1).count.toNat + w.2 < 2 ^ 32) : s.Sound (.throttle 0) := by
    rintro r' hr' w' hw' - -
    cases hr.symm.trans hr'
    cases hw.symm.trans hw'
    exact hroom
  refine .cons (hroom rfl rfl (by decide)) rfl (.cons (hroom rfl rfl (by decide)) rfl ?_)
  refine .cons (hroom rfl rfl (by decide)) rfl (.cons trivial rfl ?_)
  refine .cons (fun _ _ hstop => nomatch hstop) rfl ?_
  exact .cons trivial rfl (.cons trivial rfl trivial)

/-- A header of `2 ^ 32 - 1` bytes takes its throttles. -/
def readHuge : List Event :=
  [.begin 0 ⟨0xffffffff, 0, 0, 2⟩ false, .throttle 0, .throttle 0, .throttle 0]

/-- Lengths whose sum wraps take nothing; a message that leaves the queue after the stop, or the
delay thread after the stop of fast dispatch, is gone and still counted; and a length of nearly
`2 ^ 32` is taken on top of three bytes, the counter wraps, and giving back the three fails. -/
theorem throttles_leak :
    (∃ s', (started false).run
          [.begin 0 ⟨0xffffffff, 1, 0, 1⟩ false, .throttle 0, .throttle 0] = .ok s'
        ∧ (s'.readings.map fun r => (r.stage, r.messageSize, r.header.total))
          = [(.ready, 0, 2 ^ 32)]
        ∧ (s'.throttles .dispatch).count = 0 ∧ (s'.throttles (.policy 0)).count = 0)
      ∧ (∃ s', (started false).run (readThree false ++ [.shutdown, .dequeue 0]) = .ok s'
        ∧ Idle s' ∧ (s'.throttles .dispatch).count = 3)
      ∧ (∃ s', (started true).run
          (readThree true ++ [.stopFastDispatching 0, .delayDeliver 0]) = .ok s'
        ∧ Idle s' ∧ (s'.throttles .dispatch).count = 3 ∧ (s'.throttles (.policy 0)).count = 3
        ∧ (s'.throttles (.policy 1)).count = 1)
      ∧ (∃ s', (started false).run (readThree false ++ readHuge) = .ok s'
        ∧ (s'.throttles .dispatch).count = 2 ∧ (s'.throttles (.policy 0)).count = 2)
      ∧ (started false).run (readThree false ++ readHuge ++ [.dequeue 0, .postDispatch 0])
        = .error .assertion := by
  refine ⟨⟨_, rfl, rfl, rfl, rfl⟩, ⟨_, rfl, ⟨rfl, rfl, rfl, rfl, rfl⟩, rfl⟩,
    ⟨_, rfl, ⟨rfl, rfl, rfl, rfl, rfl⟩, rfl, rfl, rfl⟩, ⟨_, rfl, rfl, rfl⟩, rfl⟩

end Messenger

end CephDokan.Msg
