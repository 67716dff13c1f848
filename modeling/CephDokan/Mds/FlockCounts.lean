import CephDokan.Mds.FlockRefinement

/-!
# The lock counts of the clients

Every entry that `adjust_locks` and `remove_lock` come to is changed in its own round only, and
each round counts what it inserts and erases. So the counts are right whatever the ranges are.
-/

namespace CephDokan.Mds.LockState

open List

/-- How often each client occurs, without the clients that do not. -/
def clientCounts (clients : List ℕ) (c : ℕ) : Option ℤ :=
  if clients.count c = 0 then none else some (clients.count c)

theorem increment_clientCounts (clients : List ℕ) (c : ℕ) :
    increment (clientCounts clients) c = clientCounts (c :: clients) := by
  funext x
  by_cases hx : x = c
  · subst hx
    simp only [increment, Function.update_self, clientCounts, count_cons_self]
    split_ifs <;> simp_all
  · simp [increment, clientCounts, Function.update_of_ne hx, count_cons_of_ne (Ne.symm hx)]

theorem decrement_clientCounts (clients : List ℕ) (c : ℕ) :
    decrement (clientCounts (c :: clients)) c = clientCounts clients := by
  funext x
  by_cases hx : x = c
  · subst hx
    simp [decrement, clientCounts]
  · simp [decrement, clientCounts, Function.update_of_ne hx, count_cons_of_ne (Ne.symm hx)]

theorem erase_clientCounts (clients : List ℕ) (c : ℕ) :
    Function.update (clientCounts clients) c none = clientCounts (clients.filter (· ≠ c)) := by
  funext x
  by_cases hx : x = c
  · subst hx
    simp [clientCounts, count_eq_zero]
  · rw [Function.update_of_ne hx, clientCounts, clientCounts, count_filter (by simpa using hx)]

theorem clientCounts_congr {clients clients'} (h : clients.Perm clients') :
    clientCounts clients = clientCounts clients' := by
  funext c
  rw [clientCounts, clientCounts, h.count_eq]

/-- The counts are right, and the entries that a loop still has to come to are there. -/
structure Counted (s : LockState) (rest : List Held) : Prop where
  ordered : s.Ordered
  held : s.clientHeldLockCounts = clientCounts (s.heldLocks.map (·.lock.client))
  waiting : s.clientWaitingLockCounts = clientCounts (s.waitingLocks.map (·.client))
  there : ∀ e ∈ rest, e ∈ s.heldLocks
  nodup : rest.Nodup

variable {s s' : LockState} {e : Held} {rest : List Held} {lock new : FileLock}

theorem Ordered.eraseHeld_perm (h : s.Ordered) (he : e ∈ s.heldLocks) :
    s.heldLocks.Perm (e :: (s.eraseHeld e).heldLocks) := by
  have hnodup : s.heldLocks.Nodup := h.names.imp fun hid heq => hid (congrArg Held.id heq)
  have herase : (s.eraseHeld e).heldLocks = s.heldLocks.erase e := by
    rw [hnodup.erase_eq_filter]
    refine filter_congr fun x hx => ?_
    rw [Bool.eq_iff_iff]
    simp [h.id_eq_iff hx he]
  rw [herase]
  exact perm_cons_erase he

namespace Counted

theorem tail (h : Counted s (e :: rest)) : Counted s rest :=
  ⟨h.ordered, h.held, h.waiting, fun x hx => h.there x (mem_cons_of_mem e hx), h.nodup.of_cons⟩

theorem insertHeld (h : Counted s rest) (lock : FileLock) : Counted (s.insertHeld lock) rest := by
  refine ⟨h.ordered.insertHeld lock, ?_, h.waiting,
    fun x hx => mem_insertHeld.mpr (.inr (h.there x hx)), h.nodup⟩
  rw [clientCounts_congr ((insertHeld_perm s lock).map _), map_cons, ← increment_clientCounts,
    ← h.held]
  rfl

variable {r : LockState × FileLock}

section

variable (h : Counted s (e :: rest))

include h

theorem ne_of_mem {x} (hx : x ∈ rest) : x ≠ e :=
  ne_of_mem_of_not_mem hx (nodup_cons.mp h.nodup).1

theorem eraseHeld : Counted (s.eraseHeld e) rest := by
  have he := h.there e mem_cons_self
  refine ⟨h.ordered.eraseHeld e, ?_, h.waiting,
    fun x hx => (h.ordered.mem_eraseHeld he).mpr ⟨h.tail.there x hx, h.ne_of_mem hx⟩,
    h.nodup.of_cons⟩
  have hcounts := clientCounts_congr ((h.ordered.eraseHeld_perm he).map (·.lock.client))
  rw [← h.held, map_cons] at hcounts
  rw [← decrement_clientCounts, ← hcounts]
  rfl

theorem setLength (length : ℕ) : Counted (s.setLength e length) rest := by
  have he := h.there e mem_cons_self
  refine ⟨h.ordered.setLength e length, ?_, h.waiting,
    fun x hx => (mem_setLength h.ordered he).mpr (.inl ⟨h.tail.there x hx, h.ne_of_mem hx⟩),
    h.nodup.of_cons⟩
  refine h.held.trans (congrArg clientCounts ?_)
  rw [LockState.setLength, map_map]
  refine map_congr_left fun x _ => ?_
  rw [Function.comp_apply]
  split_ifs <;> rfl

theorem trimBefore (start : ℕ) : Counted (s.trimBefore e start) rest := by
  unfold LockState.trimBefore
  split_ifs
  · exact h.setLength _
  · exact h.eraseHeld

theorem cutOut (toEnd : Bool) (range : FileLock) : Counted (cutOut toEnd s e range) rest := by
  unfold LockState.cutOut
  split_ifs
  · exact h.trimBefore _
  · exact (h.insertHeld _).trimBefore _
  · exact (h.insertHeld _).trimBefore _
  · exact h.trimBefore _

theorem adjustOld (toEnd : Bool) (new : FileLock) :
    Counted (adjustOld toEnd (s, new) e).1 rest := by
  unfold LockState.adjustOld
  dsimp only
  split_ifs
  all_goals first | exact h.eraseHeld | exact h.cutOut _ _

theorem adjustNeighbor (hrun : adjustNeighbor (s, new) e = .ok r) : Counted r.1 rest := by
  unfold LockState.adjustNeighbor at hrun
  dsimp only at hrun
  split_ifs at hrun <;> cases hrun
  all_goals first | exact h.eraseHeld | exact h.tail

end

variable {toEnd : Bool}

theorem cutOuts {range} (h : Counted s rest) :
    Counted (rest.foldl (fun s e => LockState.cutOut toEnd s e range) s) [] := by
  induction rest generalizing s with
  | nil => exact h
  | cons e rest ih => exact ih (h.cutOut toEnd range)

theorem adjustOlds {olds} (h : Counted s (olds ++ rest)) :
    Counted (olds.foldl (LockState.adjustOld toEnd) (s, new)).1 rest := by
  induction olds generalizing s new with
  | nil => exact h
  | cons e olds ih => exact ih (h.adjustOld toEnd new)

theorem adjustNeighbors (h : Counted s rest)
    (hrun : rest.foldlM LockState.adjustNeighbor (s, new) = .ok r) : Counted r.1 [] := by
  induction rest generalizing s new with
  | nil =>
    cases hrun
    exact h
  | cons e rest ih =>
    obtain ⟨⟨t, new'⟩, hround, hrun⟩ := Fallible.foldlM_cons_eq_ok.mp hrun
    exact ih (h.adjustNeighbor hround) hrun

theorem insertWaiting (h : Counted s rest) (lock : FileLock) :
    Counted (s.insertWaiting lock) rest := by
  refine ⟨⟨h.ordered.names, h.ordered.fresh, h.ordered.starts⟩, h.held, ?_, h.there, h.nodup⟩
  have hperm : (s.insertWaiting lock).waitingLocks.Perm (lock :: s.waitingLocks) := by
    apply perm_middle.trans
    rw [takeWhile_append_dropWhile]
  rw [clientCounts_congr (hperm.map _), map_cons, ← increment_clientCounts, ← h.waiting]
  rfl

theorem removeWaiting (h : Counted s rest) (fl : FileLock) : Counted (s.removeWaiting fl) rest := by
  unfold LockState.removeWaiting
  dsimp only
  split_ifs with hany
  · refine ⟨⟨h.ordered.names, h.ordered.fresh, h.ordered.starts⟩, h.held, ?_, h.there, h.nodup⟩
    obtain ⟨l, hl, hit⟩ := any_eq_true.mp hany
    obtain ⟨a, front, back, -, ha, hlocks, herase⟩ := exists_of_eraseP (p := fun l : FileLock =>
      l.start = fl.start ∧ l.length = fl.length ∧ ownerEqual l fl) hl hit
    have hclient : a.client = fl.client :=
      congrArg Prod.fst (FileLock.ownerEqual_iff.mp (of_decide_eq_true ha).2.2)
    rw [herase, h.waiting, hlocks, clientCounts_congr (perm_middle.map _), map_cons, hclient,
      decrement_clientCounts]
  · exact h

section

variable (h : Counted s [])

include h

theorem eraseAllHeld (client : ℕ) : Counted { s with
      heldLocks := s.heldLocks.filter fun e => e.lock.client ≠ client
      clientHeldLockCounts := Function.update s.clientHeldLockCounts client none } [] := by
  refine ⟨⟨h.ordered.names.filter _, fun x hx => h.ordered.fresh x (mem_of_mem_filter hx),
    h.ordered.starts.filter _⟩, ?_, h.waiting, by simp, h.nodup⟩
  rw [h.held, erase_clientCounts, filter_map]
  rfl

theorem eraseAllWaiting (client : ℕ) : Counted { s with
      waitingLocks := s.waitingLocks.filter fun l => l.client ≠ client
      clientWaitingLockCounts := Function.update s.clientWaitingLockCounts client none } [] := by
  refine ⟨⟨h.ordered.names, h.ordered.fresh, h.ordered.starts⟩, h.held, ?_, h.there, h.nodup⟩
  rw [h.waiting, erase_clientCounts, filter_map]
  rfl

theorem removeAllFrom (client : ℕ) : Counted (s.removeAllFrom client).1 [] := by
  unfold LockState.removeAllFrom
  dsimp only
  split_ifs
  · exact (h.eraseAllHeld client).eraseAllWaiting client
  · exact h.eraseAllHeld client
  · exact h.eraseAllWaiting client
  · exact h

theorem visits (lock : FileLock) :
    Counted s ((s.getOverlappingLocks lock).1.filter (fun e => ownerEqual e.lock lock) ++
      (s.getOverlappingLocks lock).2) := by
  have hnodup : (scanned lock (getLastBefore lock.endpoint s.heldLocks)).Nodup := by
    refine Nodup.sublist (scanned_getLastBefore_sublist _ _ _) (nodup_reverse.mpr ?_)
    exact h.ordered.names.imp fun hid heq => hid (congrArg Held.id heq)
  rw [getOverlappingLocks_eq]
  refine ⟨h.ordered, h.held, h.waiting, fun e he => ?_, ?_⟩
  · simp only [mem_append, mem_filter, mem_reverse] at he
    exact mem_of_scanned (he.elim (fun he => he.1.1) fun he => he.1)
  · refine ((nodup_reverse.mpr (hnodup.filter _)).filter _).append
      (nodup_reverse.mpr (hnodup.filter _)) ?_
    -- a neighbor does not overlap the lock
    intro e he he'
    simp only [mem_filter, mem_reverse, isNeighbor] at he he'
    simp [he.1.2] at he'

theorem removeLock (removal : FileLock) : Counted (s.removeLock removal) [] := by
  have hvisits := h.visits removal
  exact cutOuts ⟨h.ordered, h.held, h.waiting,
    fun e he => hvisits.there e (mem_append_left _ he), hvisits.nodup.of_append_left⟩

theorem addLock {waitOnFail replay r} (hrun : s.addLock lock waitOnFail replay = .ok (s', r)) :
    Counted s' [] := by
  rw [addLock_eq] at hrun
  split_ifs at hrun with hblocked hwait
  · cases hrun
    exact h.insertWaiting lock
  · cases hrun
    exact h
  · obtain ⟨⟨t, new⟩, hadjust, hrun⟩ := Fallible.bind_eq_ok.mp hrun
    cases hrun
    exact (((h.visits lock).removeWaiting lock).adjustOlds.adjustNeighbors hadjust).insertHeld new

end

end Counted

inductive Request
  | add (lock : FileLock) (waitOnFail replay : Bool)
  | removeWaiting (lock : FileLock)
  | remove (lock : FileLock)
  | removeAll (client : ℕ)

/-- A call that returns, and the table it leaves. -/
inductive Serves : Request → LockState → LockState → Prop
  | add {s s' : LockState} {lock : FileLock} {waitOnFail replay r : Bool}
      (h : s.addLock lock waitOnFail replay = .ok (s', r)) :
      Serves (.add lock waitOnFail replay) s s'
  | removeWaiting (s : LockState) (lock : FileLock) :
      Serves (.removeWaiting lock) s (s.removeWaiting lock)
  | remove (s : LockState) (lock : FileLock) : Serves (.remove lock) s (s.removeLock lock)
  | removeAll (s : LockState) (client : ℕ) : Serves (.removeAll client) s (s.removeAllFrom client).1

theorem Counted.serves {req} (h : Counted s []) (hstep : Serves req s s') : Counted s' [] := by
  cases hstep with
  | add hrun => exact h.addLock hrun
  | removeWaiting _ lock => exact h.removeWaiting lock
  | remove _ lock => exact h.removeLock lock
  | removeAll _ client => exact h.removeAllFrom client

/-- The maps have the number of locks of each client, and no entry for a client without locks. -/
theorem clientCounts_of_trace (reqs : List Request) (s : LockState)
    (hrun : Trace Serves empty reqs s) :
    s.clientHeldLockCounts = clientCounts (s.heldLocks.map (·.lock.client)) ∧
      s.clientWaitingLockCounts = clientCounts (s.waitingLocks.map (·.client)) := by
  have hempty : Counted empty [] := ⟨wf_empty.ordered, rfl, rfl, by simp, nodup_nil⟩
  have h := hrun.invariant (fun _ _ _ _ hstep h => Counted.serves h hstep) hempty
  exact ⟨h.held, h.waiting⟩

/-- Two bytes are cut out of a lock, which leaves the client with two locks. -/
theorem clientCounts_of_split :
    ∃ s : LockState, s.clientHeldLockCounts 1 = some 2 ∧
      s.clientHeldLockCounts = clientCounts (s.heldLocks.map (·.lock.client)) ∧
      s.clientWaitingLockCounts = clientCounts (s.waitingLocks.map (·.client)) := by
  have hadd : empty.addLock (sampleLock 0 10 1 .shared) false false =
    .ok (empty.insertHeld (sampleLock 0 10 1 .shared), true) := rfl
  have hrun := Trace.cons (Serves.add hadd)
    (Trace.single (Serves.remove _ (sampleLock 4 2 1 .shared)))
  exact ⟨_, by decide, clientCounts_of_trace _ _ hrun⟩

end CephDokan.Mds.LockState
