import CephDokan.Client.MetaRequest
import CephDokan.Lib.Trace

/-!
# The life of a request

A request stays in `mds_requests` until its safe reply, until its session closes after an unsafe
one, or until it is aborted, and is deleted when its caller has returned as well. This needs that
a forward, or an `-ESTALE` that sends the request elsewhere, finds the caller still waiting, that
only requests are aborted that are not on their way to an MDS, and that no session is closed
while an unsafe reply of it is handed over.
-/

namespace CephDokan.Client

open Fallible List Caller Function

def Caller.Live (c : Caller) : Prop := c = .waiting ∨ c = .awaiting

instance (c : Caller) : Decidable c.Live := inferInstanceAs (Decidable (_ ∨ _))

theorem Caller.Live.hasReturned {c : Caller} (h : c.Live) : c.hasReturned = false := by
  rcases h with rfl | rfl <;> rfl

theorem Caller.Live.ne_returned {c : Caller} (h : c.Live) (res : ℤ) : c ≠ .returned res := by
  rcases h with rfl | rfl <;> simp

/-- What holds of a request, given whether it is in `mds_requests` and whether a reply (a safe
one?) is being handed over. -/
structure MetaRequest.Ok (r : MetaRequest) (inMap : Prop) (handing : Option Bool) : Prop where
  held : inMap → r.ref = if r.caller.hasReturned then 1 else 2
  dropped : ¬inMap → r.ref = if r.caller.hasReturned then 0 else 1
  live : r.caller.Live → inMap ∧ r.callerCond = true ∧ (r.gotUnsafe = true → r.reply ≠ none)
  done : ¬r.caller.Live → r.dispatchCond = false ∧
    (inMap → r.callerCond = false ∧ (r.gotUnsafe = true ∨ handing = some true))
  replied : inMap → r.reply ≠ none → r.dispatchCond = true
  cond : r.dispatchCond = true → r.reply ≠ none ∧ inMap ∧ handing = some (!r.gotUnsafe)
  handed : ∀ safe, handing = some safe →
    inMap ∧ r.gotUnsafe = !safe ∧ (r.caller.Live → r.dispatchCond = true)
  aborted : inMap → r.aborted = true → r.gotUnsafe = false ∧ r.reply = none ∧ r.retryAttempt = 0
  retry : inMap → r.retryAttempt = 0 → r.mds = none
  item : r.item ≠ none → inMap
  unsafeItem : r.unsafeItem ≠ none → inMap ∧ r.gotUnsafe = true

theorem MetaRequest.Ok.gone {r : MetaRequest} (href : r.ref = if r.caller.hasReturned then 0 else 1)
    (hdone : ¬r.caller.Live) (hcond : r.dispatchCond = false) (hitem : r.item = none)
    (hlist : r.unsafeItem = none) : r.Ok False none := by
  constructor <;> simp [href, hdone, hcond, hitem, hlist]

section

variable {r : MetaRequest} {inMap : Prop} {handing : Option Bool} (hok : r.Ok inMap handing)

include hok

theorem MetaRequest.Ok.unsafeItem_none (hgot : r.gotUnsafe = false) : r.unsafeItem = none := by
  by_contra h
  exact Bool.false_ne_true (hgot.symm.trans (hok.unsafeItem h).2)

theorem MetaRequest.Ok.caller_live (hin : inMap) (hcond : r.callerCond = true) : r.caller.Live := by
  by_contra hdone
  exact Bool.false_ne_true (((hok.done hdone).2 hin).1.symm.trans hcond)

end

namespace Requests

variable {s s' : Requests} {tid : ℕ} {r : MetaRequest}

def handing (s : Requests) (tid : ℕ) : Option Bool :=
  match s.dispatching with
  | some (t, safe) => if t = tid then some safe else none
  | none => none

theorem handing_eq_some {safe} : s.handing tid = some safe ↔ s.dispatching = some (tid, safe) := by
  unfold handing
  cases s.dispatching with
  | none => simp
  | some d =>
    obtain ⟨t, safe'⟩ := d
    by_cases h : t = tid <;> simp [h]

def Made (s : Requests) (tid : ℕ) : Prop := 1 ≤ tid ∧ tid ≤ s.lastTid

structure Inv (s : Requests) : Prop where
  nodup : s.pending.Nodup
  made : ∀ t ∈ s.pending, s.Made t
  req : ∀ t, s.Made t → (s.req t).Ok (t ∈ s.pending) (s.handing t)
  dispatch : ∀ t safe, s.dispatching = some (t, safe) → s.Made t
  once : (s.removed.map Prod.fst).Nodup
  removed : ∀ t, t ∈ s.removed.map Prod.fst ↔ s.Made t ∧ t ∉ s.pending
  why : ∀ t why, (t, why) ∈ s.removed → (why = .closed → (s.req t).gotUnsafe = true) ∧
    (why = .aborted → (s.req t).aborted = true)
  result : (s.results.map Prod.fst).Nodup
  results : ∀ t res, (t, res) ∈ s.results ↔ s.Made t ∧ (s.req t).caller = .returned res

theorem Inv.ok (hs : s.Inv) (hmem : tid ∈ s.pending) :
    (s.req tid).Ok (tid ∈ s.pending) (s.handing tid) :=
  hs.req tid (hs.made tid hmem)

theorem Inv.guarded {p} [Decidable p] {run : Run Requests} (hs : s.Inv)
    (h : p → Yields run Inv) : Yields (if p then run else return s) Inv := by
  split_ifs with hp
  · exact h hp
  · exact ⟨s, rfl, hs⟩

section Change

variable (hs : s.Inv) (hlast : s'.lastTid = s.lastTid)
  (hreq : s'.req = Function.update s.req tid r)
  (hdisp : ∀ t safe, s'.dispatching = some (t, safe) → s.Made t)
  (hhanding : ∀ t, t ≠ tid → s'.handing t = s.handing t)
  (hresult : (s'.results.map Prod.fst).Nodup)
  (hresults : ∀ t res, (t, res) ∈ s'.results ↔ s.Made t ∧ (s'.req t).caller = .returned res)

include hs hlast hreq hdisp hhanding hresult hresults

/-- A change of one request: what is left to show is about `mds_requests` and the removals. -/
theorem Inv.change (hnodup : s'.pending.Nodup)
    (hother : ∀ t, t ≠ tid → (t ∈ s'.pending ↔ t ∈ s.pending))
    (hkept : tid ∈ s'.pending → tid ∈ s.pending)
    (hok : r.Ok (tid ∈ s'.pending) (s'.handing tid)) (honce : (s'.removed.map Prod.fst).Nodup)
    (hremoved : ∀ t, t ∈ s'.removed.map Prod.fst ↔ s.Made t ∧ t ∉ s'.pending)
    (hwhy : ∀ t why, (t, why) ∈ s'.removed → (why = .closed → (s'.req t).gotUnsafe = true) ∧
      (why = .aborted → (s'.req t).aborted = true)) : s'.Inv := by
  have hmade : ∀ t, s'.Made t ↔ s.Made t := fun t => by unfold Made; rw [hlast]
  refine ⟨hnodup, ?_, ?_, ?_, honce, ?_, hwhy, hresult, ?_⟩
  · intro t h
    rw [hmade]
    by_cases heq : t = tid
    · subst heq
      exact hs.made t (hkept h)
    · exact hs.made t ((hother t heq).mp h)
  · intro t hm
    rw [hreq]
    by_cases heq : t = tid
    · subst heq
      rw [update_self]
      exact hok
    · rw [update_of_ne heq, hhanding t heq, hother t heq]
      exact hs.req t ((hmade t).mp hm)
  · intro t safe h
    exact (hmade t).mpr (hdisp t safe h)
  · intro t
    rw [hremoved, hmade]
  · intro t res
    rw [hresults, hmade]

theorem Inv.update (hpending : s'.pending = s.pending) (hremoved : s'.removed = s.removed)
    (hok : r.Ok (tid ∈ s.pending) (s'.handing tid))
    (hgot : (s.req tid).gotUnsafe = true → r.gotUnsafe = true)
    (haborted : (s.req tid).aborted = true → r.aborted = true) : s'.Inv := by
  refine hs.change hlast hreq hdisp hhanding hresult hresults (hpending ▸ hs.nodup)
    (fun _ _ => by rw [hpending]) (by rw [hpending]; exact id) (by rw [hpending]; exact hok)
    (hremoved ▸ hs.once) (by rw [hremoved, hpending]; exact hs.removed) ?_
  · intro t why hmem
    rw [hremoved] at hmem
    obtain ⟨hclosed, hab⟩ := hs.why t why hmem
    rw [hreq]
    by_cases heq : t = tid
    · subst heq
      rw [update_self]
      exact ⟨fun h => hgot (hclosed h), fun h => haborted (hab h)⟩
    · rw [update_of_ne heq]
      exact ⟨hclosed, hab⟩

theorem Inv.erase {why} (hmem : tid ∈ s.pending)
    (hpending : s'.pending = s.pending.erase tid)
    (hremoved : s'.removed = s.removed ++ [(tid, why)])
    (hok : r.Ok False (s'.handing tid))
    (hwhy : (why = .closed → r.gotUnsafe = true) ∧ (why = .aborted → r.aborted = true)) :
    s'.Inv := by
  have hpend : ∀ t, t ∈ s'.pending ↔ t ≠ tid ∧ t ∈ s.pending := by
    intro t
    rw [hpending]
    exact hs.nodup.mem_erase_iff
  have hgone : (tid ∈ s'.pending) = False := by simp [hpend]
  have hnot : tid ∉ s.removed.map Prod.fst := fun h => ((hs.removed tid).mp h).2 hmem
  refine hs.change hlast hreq hdisp hhanding hresult hresults (hpending ▸ hs.nodup.erase tid) ?_
    (fun _ => hmem) (by rw [hgone]; exact hok) ?_ ?_ ?_
  · intro t heq
    simp [hpend, heq]
  · rw [hremoved, map_append]
    exact nodup_append_comm.mpr (nodup_cons.mpr ⟨hnot, hs.once⟩)
  · intro t
    rw [hremoved, map_append, mem_append, hs.removed, hpend]
    by_cases heq : t = tid
    · subst heq
      simp [hs.made t hmem]
    · simp [heq]
  · intro t why' h
    rw [hremoved] at h
    rw [hreq]
    rcases mem_append.mp h with hold | hnew
    · have hne : t ≠ tid := by
        rintro rfl
        exact hnot (mem_map_of_mem hold)
      rw [update_of_ne hne]
      exact hs.why t why' hold
    · obtain ⟨rfl, rfl⟩ := Prod.mk.inj (mem_singleton.mp hnew)
      rw [update_self]
      exact hwhy

end Change

theorem Inv.same_results (hs : s.Inv)
    (hcaller : ∀ res, r.caller = .returned res ↔ (s.req tid).caller = .returned res) (t : ℕ)
    (res : ℤ) : (t, res) ∈ s.results ↔
      s.Made t ∧ (Function.update s.req tid r t).caller = .returned res := by
  rw [hs.results]
  by_cases heq : t = tid
  · subst heq
    rw [update_self, hcaller res]
  · rw [update_of_ne heq]

theorem Inv.set (hs : s.Inv) (hok : r.Ok (tid ∈ s.pending) (s.handing tid))
    (hgot : (s.req tid).gotUnsafe = true → r.gotUnsafe = true)
    (haborted : (s.req tid).aborted = true → r.aborted = true)
    (hcaller : ∀ res, r.caller = .returned res ↔ (s.req tid).caller = .returned res) :
    (s.set tid r).Inv :=
  hs.update rfl rfl hs.dispatch (fun _ _ => rfl)
    hs.result (hs.same_results hcaller) rfl rfl hok hgot
    haborted

theorem deref_eq (h : (s.req tid).ref ≠ 0) : s.deref tid = .ok (s.req tid) := if_neg h

theorem putRequest_eq (h : (s.req tid).ref ≠ 0)
    (hlists : (s.req tid).ref = 1 → (s.req tid).item = none ∧ (s.req tid).unsafeItem = none) :
    s.putRequest tid = .ok (s.set tid { s.req tid with ref := (s.req tid).ref - 1 }) := by
  unfold putRequest
  rw [deref_eq h, ok_bind, assertThat_of hlists]
  rfl

def erased (s : Requests) (tid : ℕ) (r : MetaRequest) (why : Removal) : Requests :=
  { s.set tid { r with item := none, ref := r.ref - 1 } with
    pending := s.pending.erase tid
    removed := s.removed ++ [(tid, why)] }

theorem remove_eq (why : Removal) (h : r.ref ≠ 0) (hlist : r.ref = 1 → r.unsafeItem = none) :
    (s.set tid r).remove tid why = .ok (s.erased tid r why) := by
  unfold remove
  rw [deref_eq (by simpa [set] using h), ok_bind, putRequest_eq]
  · simp [set, erased]
  · simpa [set] using h
  · simpa [set] using hlist

theorem Inv.ref_ne_zero (hs : s.Inv) (ht : s.Made tid)
    (h : tid ∈ s.pending ∨ (s.req tid).caller.hasReturned = false) : (s.req tid).ref ≠ 0 := by
  have hok := hs.req tid ht
  by_cases hmem : tid ∈ s.pending
  · rw [hok.held hmem]
    split_ifs <;> omega
  · have hret : (s.req tid).caller.hasReturned = false := h.resolve_left hmem
    rw [hok.dropped hmem, hret]
    decide

theorem Inv.pending_ref (hs : s.Inv) (hmem : tid ∈ s.pending) : (s.req tid).ref ≠ 0 :=
  hs.ref_ne_zero (hs.made tid hmem) (.inl hmem)

@[simp] theorem set_req_self (s : Requests) (tid : ℕ) (r : MetaRequest) :
    (s.set tid r).req tid = r := by simp [set]

@[simp] theorem set_set (s : Requests) (tid : ℕ) (r r' : MetaRequest) :
    (s.set tid r).set tid r' = s.set tid r' := by simp [set]

theorem sendRequest_eq (mds : ℕ) (h : (s.req tid).ref ≠ 0) (ha : (s.req tid).aborted = false) :
    s.sendRequest tid mds = .ok (s.set tid { s.req tid with
      retryAttempt := (s.req tid).retryAttempt + 1, mds := some mds, item := some mds }) := by
  unfold sendRequest
  rw [deref_eq h, ok_bind, if_neg (by simp [ha])]
  rfl

/-! ### The caller -/

def attempted (r : MetaRequest) : Attempt → MetaRequest
  | .wait => { r with callerCond := true, resendMds := none, caller := .waiting }
  | .send mds => { r with
      callerCond := true, resendMds := none, retryAttempt := r.retryAttempt + 1, mds := some mds,
      item := some mds, kick := false, caller := .awaiting }

variable (a : Attempt)

theorem loopTop_eq (h : (s.req tid).ref ≠ 0) (ha : (s.req tid).aborted = false) :
    s.loopTop tid a = .ok (s.set tid (attempted (s.req tid) a)) := by
  unfold loopTop
  rw [deref_eq h, ok_bind, if_neg (by simp [ha])]
  unfold attempt
  rw [deref_eq h, ok_bind]
  cases a with
  | wait => simp [attempted]
  | send mds =>
    dsimp only
    rw [sendRequest_eq mds (by simpa using h) (by simpa using ha)]
    simp [attempted]

theorem Inv.results_append (hs : s.Inv) (ht : s.Made tid)
    (hlive : (s.req tid).caller.hasReturned = false) (req : ℕ → MetaRequest) (res : ℤ)
    (hother : ∀ t, t ≠ tid → req t = s.req t) (hnew : (req tid).caller = .returned res) :
    ((s.results ++ [(tid, res)]).map Prod.fst).Nodup ∧ ∀ t res',
      (t, res') ∈ s.results ++ [(tid, res)] ↔ s.Made t ∧ (req t).caller = .returned res' := by
  have hnot : ∀ res', (tid, res') ∉ s.results := by
    intro res' h
    rw [((hs.results tid res').mp h).2] at hlive
    cases hlive
  constructor
  · rw [map_append]
    refine nodup_append_comm.mpr (nodup_cons.mpr ⟨fun ha => ?_, hs.result⟩)
    obtain ⟨⟨t, res'⟩, h, rfl⟩ := mem_map.mp ha
    exact hnot res' h
  · intro t res'
    rw [mem_append, mem_singleton, Prod.mk.injEq, hs.results]
    by_cases heq : t = tid
    · subst heq
      rw [hnew, returned.injEq]
      constructor
      · rintro (⟨-, h⟩ | ⟨-, h⟩)
        · rw [h] at hlive
          cases hlive
        · exact ⟨ht, h.symm⟩
      · rintro ⟨-, h⟩
        exact .inr ⟨rfl, h.symm⟩
    · simp [heq, hother t heq]

theorem leaveLoop_aborted (hs : s.Inv) (hmem : tid ∈ s.pending) (hlive : (s.req tid).caller.Live)
    (ha : (s.req tid).aborted = true) (b : Bool) :
    Yields ((s.set tid { s.req tid with callerCond := b }).leaveLoop tid) Inv := by
  have hok := hs.ok hmem
  obtain ⟨hgot, hreply, hretry⟩ := hok.aborted hmem ha
  have href : (s.req tid).ref = 2 := by rw [hok.held hmem, hlive.hasReturned]; rfl
  have hlist := hok.unsafeItem_none hgot
  let r : MetaRequest := { s.req tid with
    callerCond := b
    item := none
    ref := 0
    caller := .returned etimedout }
  obtain ⟨hnodup, hresults⟩ := hs.results_append (hs.made tid hmem) hlive.hasReturned
    (update s.req tid r) etimedout (fun t ht => update_of_ne ht _ _) (by simp [r])
  refine ⟨{ s.set tid r with
    pending := s.pending.erase tid
    removed := s.removed ++ [(tid, .aborted)]
    results := s.results ++ [(tid, etimedout)] }, ?_, ?_⟩
  · unfold leaveLoop
    rw [deref_eq (by simp [href])]
    simp only [ok_bind, set_req_self, hreply, ha, hgot, hretry, assertThat_of, if_true]
    rw [remove_eq _ (by simp [href]) (by simp [href])]
    simp only [ok_bind]
    rw [putRequest_eq (by simp [erased, set, href]) (by simp [erased, set, hlist])]
    simp [return_, erased, set, href, hreply, ha, hgot, hretry, r]
  · have hhanding : s.handing tid = none :=
      Option.eq_none_iff_forall_ne_some.mpr fun safe hh =>
        (hok.cond ((hok.handed safe hh).2.2 hlive)).1 hreply
    have hcond : (s.req tid).dispatchCond = false := by
      by_contra h
      exact (hok.cond (by simpa using h)).1 hreply
    refine hs.erase rfl rfl hs.dispatch (fun _ _ => rfl) hnodup hresults hmem rfl rfl ?_ ?_
    · change r.Ok False (s.handing tid)
      rw [hhanding]
      exact .gone rfl (by simp [r, Live]) hcond rfl hlist
    · simp [r, ha]

theorem attempted_ok (b : Bool) {inMap} {handing} (hok : r.Ok inMap handing)
    (hlive : r.caller.Live) (ha : r.aborted = false) :
    (attempted { r with callerCond := b } a).Ok inMap handing := by
  cases hok
  cases a with
  | wait =>
    constructor <;> grind [attempted, Live, hasReturned]
  | send mds =>
    constructor <;> grind [attempted, Live, hasReturned]

@[simp] theorem set_self (s : Requests) (tid : ℕ) : s.set tid (s.req tid) = s := by simp [set]

section

variable (hs : s.Inv) (hmem : tid ∈ s.pending) (hlive : (s.req tid).caller.Live)

include hs hmem hlive

theorem leaveLoop_replied (hreply : (s.req tid).reply ≠ none) :
    Yields ((s.set tid { s.req tid with callerCond := false }).leaveLoop tid) Inv := by
  have hok := hs.ok hmem
  have hcond := hok.replied hmem hreply
  obtain ⟨x, hx⟩ := Option.ne_none_iff_exists'.mp hreply
  refine ⟨s.set tid { s.req tid with
    callerCond := false, reply := none, dispatchCond := false, caller := .verifying }, ?_, ?_⟩
  · unfold leaveLoop
    rw [deref_eq (by simpa using hs.pending_ref hmem)]
    simp [hx, assertThat_of hcond]
  · refine hs.set ?_ id id ?_
    · cases hok
      constructor <;> grind [Live, hasReturned]
    · intro res
      simp [hlive.ne_returned res]

theorem loopTop_spec (b : Bool) :
    Yields ((s.set tid { s.req tid with callerCond := b }).loopTop tid a) Inv := by
  have href := hs.pending_ref hmem
  cases ha : (s.req tid).aborted with
  | true =>
    obtain ⟨s', hrun, hs'⟩ := leaveLoop_aborted hs hmem hlive ha b
    refine ⟨s', ?_, hs'⟩
    unfold loopTop
    rw [deref_eq (by simpa using href), ok_bind, if_pos (by simpa using ha)]
    exact hrun
  | false =>
    rw [loopTop_eq a (by simpa using href) (by simpa using ha), set_set, set_req_self]
    refine ⟨_, rfl, hs.set (attempted_ok a b (hs.ok hmem) hlive ha) ?_ ?_ ?_⟩
    · cases a <;> exact id
    · cases a <;> exact id
    · intro res
      cases a <;> simp [attempted, hlive.ne_returned res]

end

theorem wakeCaller_spec (hs : s.Inv) (ht : s.Made tid) : Yields (s.wakeCaller tid a) Inv := by
  have hok := hs.req tid ht
  unfold wakeCaller
  cases hc : (s.req tid).caller with
  | waiting =>
    have hlive : (s.req tid).caller.Live := .inl hc
    obtain ⟨hmem, -⟩ := hok.live hlive
    have hrun := loopTop_spec a hs hmem hlive (s.req tid).callerCond
    have hself : s.set tid { s.req tid with callerCond := (s.req tid).callerCond } = s :=
      set_self s tid
    rw [hself] at hrun
    exact hrun
  | awaiting =>
    have hlive : (s.req tid).caller.Live := .inr hc
    obtain ⟨hmem, -⟩ := hok.live hlive
    rw [deref_eq (hs.pending_ref hmem), ok_bind]
    split_ifs with hwake hreply
    · exact leaveLoop_replied hs hmem hlive (by simpa [Option.isSome_iff_ne_none] using hreply)
    · exact loopTop_spec a hs hmem hlive false
    · exact ⟨s, rfl, hs⟩
  | verifying => exact ⟨s, rfl, hs⟩
  | returned res => exact ⟨s, rfl, hs⟩

theorem finish_spec (res : ℤ) (hs : s.Inv) (ht : s.Made tid) : Yields (s.finish tid res) Inv := by
  unfold finish
  split_ifs with hc
  · have hok := hs.req tid ht
    have href := hs.ref_ne_zero ht (.inr (by rw [hc]; rfl))
    have hlists : (s.req tid).ref = 1 → (s.req tid).item = none ∧
        (s.req tid).unsafeItem = none := by
      cases hok
      grind [hasReturned]
    rw [putRequest_eq href hlists, ok_bind]
    refine ⟨_, rfl, ?_⟩
    let r : MetaRequest := { s.req tid with ref := (s.req tid).ref - 1, caller := .returned res }
    obtain ⟨hnodup, hresults⟩ := hs.results_append ht (by rw [hc]; rfl) (update s.req tid r) res
      (fun t ht => update_of_ne ht _ _) (by simp [r])
    refine hs.update (r := r) rfl ?_ hs.dispatch (fun _ _ => rfl) hnodup ?_ rfl rfl ?_ id id
    · simp [return_, set, r]
    · intro t res'
      simpa [return_, set] using hresults t res'
    · change MetaRequest.Ok _ _ (s.handing tid)
      cases hok
      constructor <;> grind [Live, hasReturned]
  · exact ⟨s, rfl, hs⟩

/-! ### The dispatcher -/

theorem Inv.live (hs : s.Inv) (hmem : tid ∈ s.pending) (hgot : (s.req tid).gotUnsafe = false)
    (hhanding : s.handing tid ≠ some true) : (s.req tid).caller.Live := by
  by_contra hdone
  rcases (((hs.ok hmem).done hdone).2 hmem).2 with h | h
  · rw [hgot] at h
    cases h
  · exact hhanding h

theorem signalCaller_eq (hcond : r.callerCond = true) (hlive : r.caller.Live) :
    r.signalCaller = .ok () :=
  if_pos ⟨hcond, by simp [hlive.hasReturned]⟩

theorem handing_eq_none (h : s.dispatching = none) (tid : ℕ) : s.handing tid = none := by
  simp [handing, h]

theorem handleForward_spec (dest : ℕ) (hs : s.Inv) (hidle : s.dispatching = none)
    (hgot : tid ∈ s.pending → (s.req tid).gotUnsafe = false) :
    Yields (s.handleForward tid dest) Inv := by
  refine hs.guarded fun hmem => ?_
  have hok := hs.ok hmem
  have hlive := hs.live hmem (hgot hmem) (by simp [handing_eq_none hidle])
  obtain ⟨-, hcond, -⟩ := hok.live hlive
  rw [deref_eq (hs.pending_ref hmem), ok_bind]
  dsimp only
  rw [signalCaller_eq (by exact hcond) (by exact hlive), ok_bind]
  refine ⟨_, rfl, hs.set ?_ id id fun _ => Iff.rfl⟩
  cases hok
  constructor <;> grind [Live, hasReturned]

theorem Inv.reply_none (hs : s.Inv) (hidle : s.dispatching = none) (hmem : tid ∈ s.pending) :
    (s.req tid).reply = none := by
  by_contra hreply
  have hok := hs.ok hmem
  obtain ⟨-, -, h⟩ := hok.cond (hok.replied hmem hreply)
  rw [handing_eq_none hidle] at h
  cases h

theorem takeReply_first (src : ℕ) (safe : Bool) (result : ℤ) (hs : s.Inv)
    (hidle : s.dispatching = none) (hmem : tid ∈ s.pending)
    (hgot : (s.req tid).gotUnsafe = false) (ha : (s.req tid).aborted = false) :
    Yields (s.takeReply tid src safe result) Inv := by
  have hok := hs.ok hmem
  have hlive := hs.live hmem hgot (by simp [handing_eq_none hidle])
  have hreply := hs.reply_none hidle hmem
  obtain ⟨-, hcond, -⟩ := hok.live hlive
  let r : MetaRequest := { s.req tid with
    reply := some result
    gotUnsafe := !safe
    unsafeItem := if safe then (s.req tid).unsafeItem else some src
    dispatchCond := true }
  refine ⟨{ s.set tid r with dispatching := some (tid, safe) }, ?_, ?_⟩
  · unfold takeReply
    rw [deref_eq (hs.pending_ref hmem), ok_bind, assertThat_of hreply, ok_bind]
    cases safe <;> simp [MetaRequest.signalCaller, hcond, hlive.hasReturned, hgot, r]
  · refine hs.update rfl rfl ?_ ?_ hs.result (hs.same_results fun _ => Iff.rfl) rfl rfl ?_ ?_ id
    · intro t safe' h
      obtain ⟨rfl, -⟩ := Prod.mk.inj (Option.some.inj h)
      exact hs.made _ hmem
    · intro t hne
      simp [handing, hidle, Ne.symm hne]
    · have hhanding : handing { s.set tid r with dispatching := some (tid, safe) } tid =
        some safe := by
        simp [handing]
      cases hok
      constructor <;> grind [Live, hasReturned]
    · simp [hgot]

theorem remove_spec (why : Removal) {r : MetaRequest} (hs : s.Inv) (hmem : tid ∈ s.pending)
    (hhanding : s.handing tid = none) (hdone : ¬(s.req tid).caller.Live)
    (href : r.ref = (s.req tid).ref) (hcaller : r.caller = (s.req tid).caller)
    (hcond : r.dispatchCond = (s.req tid).dispatchCond) (hlist : r.unsafeItem = none)
    (hwhy : (why = .closed → r.gotUnsafe = true) ∧ (why = .aborted → r.aborted = true)) :
    (s.set tid r).remove tid why = .ok (s.erased tid r why) ∧ (s.erased tid r why).Inv := by
  have hok := hs.ok hmem
  refine ⟨remove_eq why (by simp [href, hs.pending_ref hmem]) (by simp [hlist]), ?_⟩
  refine hs.erase rfl rfl hs.dispatch (fun _ _ => rfl) hs.result
    (hs.same_results fun res => by rw [← hcaller]) hmem rfl rfl ?_ hwhy
  change MetaRequest.Ok _ _ (s.handing tid)
  rw [hhanding]
  refine .gone ?_ (by simpa [hcaller] using hdone) (hcond.trans (hok.done hdone).1) rfl hlist
  simp only [href, hcaller, hok.held hmem]
  split_ifs <;> rfl

theorem takeReply_second (src : ℕ) (result : ℤ) (hs : s.Inv) (hidle : s.dispatching = none)
    (hmem : tid ∈ s.pending) (hgot : (s.req tid).gotUnsafe = true) :
    Yields (s.takeReply tid src true result) Inv := by
  have hok := hs.ok hmem
  have hreply := hs.reply_none hidle hmem
  have hdone : ¬(s.req tid).caller.Live := fun hlive => (hok.live hlive).2.2 hgot hreply
  have href := hs.pending_ref hmem
  obtain ⟨hrun, hs'⟩ := remove_spec .safe
    (r := { s.req tid with reply := some result, unsafeItem := none }) hs hmem
    (handing_eq_none hidle tid) hdone rfl rfl rfl rfl (by simp)
  refine ⟨_, ?_, hs'⟩
  rw [← hrun]
  unfold takeReply finishReply
  rw [deref_eq href, ok_bind, assertThat_of hreply, ok_bind]
  simp only [if_true, hgot, not_true, or_self, if_false]
  rw [deref_eq (by simpa using href)]
  simp

theorem handleReply_spec (src : ℕ) (safe : Bool) (result : ℤ) (target : Option ℕ) (same : Bool)
    (hs : s.Inv) (hidle : s.dispatching = none) (ha : tid ∈ s.pending → (s.req tid).aborted = false)
    (hestale : tid ∈ s.pending → result = estale → (s.req tid).gotUnsafe = false) :
    Yields (s.handleReply tid src safe result target same) Inv := by
  unfold handleReply
  by_cases hmem : tid ∈ s.pending
  · rw [if_pos hmem, deref_eq (hs.pending_ref hmem), ok_bind]
    have hok := hs.ok hmem
    by_cases hdup : (s.req tid).gotUnsafe = true ∧ ¬safe = true
    · rw [if_pos hdup]
      exact ⟨s, rfl, hs⟩
    · rw [if_neg hdup]
      by_cases hres : result = estale
      · rw [if_pos hres]
        have hgot := hestale hmem hres
        have hlive := hs.live hmem hgot (by simp [handing_eq_none hidle])
        obtain ⟨-, hcond, -⟩ := hok.live hlive
        have hset :
            (s.set tid { s.req tid with resendMds := (s.req tid).resendMds.or target }).Inv := by
          refine hs.set ?_ id id fun _ => Iff.rfl
          cases hok
          constructor <;> assumption
        dsimp only
        split_ifs
        · exact takeReply_first src safe result hset hidle hmem (by simpa using hgot)
            (by simpa using ha hmem)
        · rw [signalCaller_eq (by exact hcond) (by exact hlive)]
          exact ⟨_, rfl, hset⟩
      · rw [if_neg hres]
        cases hgot : (s.req tid).gotUnsafe with
        | false => exact takeReply_first src safe result hs hidle hmem hgot (ha hmem)
        | true =>
          have hsafe : safe = true := by
            by_contra h
            exact hdup ⟨hgot, h⟩
          rw [hsafe]
          exact takeReply_second src result hs hidle hmem hgot
  · rw [if_neg hmem]
    exact ⟨s, rfl, hs⟩

theorem kickback_spec (hs : s.Inv) : Yields s.kickback Inv := by
  unfold kickback
  cases hdisp : s.dispatching with
  | none => exact ⟨s, rfl, hs⟩
  | some d =>
    obtain ⟨t, safe⟩ := d
    have hok := hs.req t (hs.dispatch t safe hdisp)
    have hhanding : s.handing t = some safe := by simp [handing, hdisp]
    obtain ⟨hmem, hgot, hwait⟩ := hok.handed safe hhanding
    dsimp only
    rw [deref_eq (hs.pending_ref hmem), ok_bind]
    by_cases hcond : (s.req t).dispatchCond = true
    · rw [if_pos hcond]
      exact ⟨s, rfl, hs⟩
    · rw [if_neg hcond]
      have hdone : ¬(s.req t).caller.Live := fun hlive => hcond (hwait hlive)
      have hother : ∀ t', t' ≠ t → s.handing t' = none := by
        intro t' hne
        simp [handing, hdisp, Ne.symm hne]
      cases safe with
      | false =>
        refine ⟨_, rfl, hs.update (r := s.req t) rfl (by simp) (by simp) ?_
          hs.result hs.results rfl rfl
          ?_ id id⟩
        · intro t' hne
          rw [hother t' hne]
          rfl
        · have hgot' : (s.req t).gotUnsafe = true := by simpa using hgot
          change MetaRequest.Ok _ _ none
          cases hok
          constructor <;> grind [Live, hasReturned]
      | true =>
        have hgot' : (s.req t).gotUnsafe = false := by simpa using hgot
        have hlist := hok.unsafeItem_none hgot'
        have href := hs.pending_ref hmem
        rw [if_pos rfl]
        unfold finishReply
        have hself : ({ s with dispatching := none } : Requests).set t (s.req t) =
            { s with dispatching := none } := set_self _ t
        rw [deref_eq (by exact href), ok_bind, if_neg (by simp [hgot']), ← hself,
          remove_eq .safe (by exact href) (by simp [hlist])]
        refine ⟨_, rfl, hs.erase rfl rfl (by simp [erased, set]) ?_ hs.result
          (hs.same_results fun _ => Iff.rfl) hmem rfl rfl ?_ (by simp)⟩
        · intro t' hne
          rw [hother t' hne]
          rfl
        · refine .gone ?_ hdone (hok.done hdone).1 rfl hlist
          have hheld := hok.held hmem
          dsimp only
          split_ifs at hheld ⊢ <;> omega

/-! ### Sessions -/

theorem sendRequest_spec (mds : ℕ) (hs : s.Inv) (hmem : tid ∈ s.pending)
    (ha : (s.req tid).aborted = false) :
    ∃ s', s.sendRequest tid mds = .ok s' ∧ s'.Inv ∧ s'.pending = s.pending := by
  have hok := hs.ok hmem
  rw [sendRequest_eq mds (hs.pending_ref hmem) ha]
  refine ⟨_, rfl, hs.set ?_ id id fun _ => Iff.rfl, rfl⟩
  cases hok
  constructor <;> grind [Live, hasReturned]

theorem sendLoop_spec (p : MetaRequest → Prop) [DecidablePred p] (mds : ℕ) (hs : s.Inv)
    (hp : ∀ (r : MetaRequest) inMap handing, r.Ok inMap handing → inMap → p r → r.aborted = false) :
    ∃ s', s.pending.foldlM (fun s tid => do
      let r ← s.deref tid
      if p r then s.sendRequest tid mds else return s) s = .ok s' ∧ s'.Inv := by
  refine (Fallible.foldlM_total (P := fun t : Requests => t.Inv ∧ t.pending = s.pending) ?_
    ⟨hs, rfl⟩).imp fun s' h => ⟨h.1, h.2.1⟩
  rintro tid hmem t ⟨ht, hpend⟩
  rw [← hpend] at hmem
  rw [deref_eq (ht.pending_ref hmem), ok_bind]
  split_ifs with hsends
  · have ha := hp _ _ _ (ht.ok hmem) hmem hsends
    obtain ⟨t', hrun, ht', hpend'⟩ := sendRequest_spec mds ht hmem ha
    exact ⟨t', hrun, ht', hpend'.trans hpend⟩
  · exact ⟨t, rfl, ht, hpend⟩

/-- A request that has not been sent since it was made or forwarded is not on its way to an MDS,
so this loop sends nothing. -/
theorem kickRequests_spec (mds : ℕ) (hs : s.Inv) : Yields (s.kickRequests mds) Inv := by
  apply sendLoop_spec _ mds hs
  rintro r inMap handing hok hin ⟨-, hretry, hmds⟩
  rw [hok.retry hin hretry] at hmds
  cases hmds

theorem resendUnsafeRequests_spec (mds : ℕ) (hs : s.Inv) :
    Yields (s.resendUnsafeRequests mds) Inv := by
  obtain ⟨s1, hrun1, hs1⟩ := sendLoop_spec (fun r => r.unsafeItem = some mds) mds hs <| by
    intro r inMap handing hok hin hitem
    by_contra h
    have hgot := (hok.aborted hin (by simpa using h)).1
    rw [(hok.unsafeItem (by simp [hitem])).2] at hgot
    cases hgot
  obtain ⟨s2, hrun2, hs2⟩ := sendLoop_spec
      (fun r => r.gotUnsafe = false ∧ r.retryAttempt ≠ 0 ∧ r.mds = some mds) mds hs1 <| by
    rintro r inMap handing hok hin ⟨-, hretry, -⟩
    by_contra h
    exact hretry (hok.aborted hin (by simpa using h)).2.2
  refine ⟨s2, ?_, hs2⟩
  unfold resendUnsafeRequests
  rw [hrun1, ok_bind, hrun2]

/-- What the close of a session needs: the requests on its lists were sent to its MDS last, and
no unsafe reply to one of them is being handed over. -/
structure Closable (s : Requests) (mds : ℕ) : Prop where
  listed : ∀ t ∈ s.pending, (s.req t).item = some mds ∨ (s.req t).unsafeItem = some mds →
    (s.req t).mds = some mds
  idle : ∀ t, s.dispatching = some (t, false) → (s.req t).mds ≠ some mds

/-- What a round of `kick_requests_closed` leaves. -/
structure Kicked (mds : ℕ) (s s' : Requests) (tid : ℕ) : Prop where
  inv : s'.Inv
  dispatching : s'.dispatching = s.dispatching
  lastTid : s'.lastTid = s.lastTid
  pending : ∀ t, t ≠ tid → (t ∈ s'.pending ↔ t ∈ s.pending)
  other : ∀ t, t ≠ tid → s'.req t = s.req t
  target : (s'.req tid).mds = (s.req tid).mds
  off : ¬((s'.req tid).item = some mds ∨ (s'.req tid).unsafeItem = some mds)

theorem kickClosed_spec (mds : ℕ) (hs : s.Inv) (hmem : tid ∈ s.pending) (hc : s.Closable mds) :
    ∃ s', kickClosed mds s tid = .ok s' ∧ Kicked mds s s' tid := by
  have hok := hs.ok hmem
  unfold kickClosed
  rw [deref_eq (hs.pending_ref hmem), ok_bind]
  by_cases hmds : (s.req tid).mds = some mds
  · rw [if_pos hmds]
    have hkick : (if (s.req tid).callerCond then do
          (s.req tid).signalCaller
          return { s.req tid with kick := true }
        else return s.req tid : Run MetaRequest) =
        .ok { s.req tid with kick := (s.req tid).kick || (s.req tid).callerCond } := by
      cases hcond : (s.req tid).callerCond with
      | false => simp
      | true => simp [signalCaller_eq hcond (hok.caller_live hmem hcond)]
    rw [hkick, ok_bind]
    by_cases hgot : (s.req tid).gotUnsafe = true
    · rw [if_pos hgot]
      have hhanding : s.handing tid = none := by
        refine Option.eq_none_iff_forall_ne_some.mpr fun safe hh => ?_
        obtain rfl : safe = false := by simpa [hgot] using (hok.handed safe hh).2.1
        exact hc.idle tid (handing_eq_some.mp hh) hmds
      have hdone : ¬(s.req tid).caller.Live := by
        intro hlive
        have hreply := (hok.live hlive).2.2 hgot
        have := (hok.cond (hok.replied hmem hreply)).2.2
        rw [hhanding] at this
        cases this
      obtain ⟨hrun, hs'⟩ := remove_spec .closed
        (r := { s.req tid with
          kick := (s.req tid).kick || (s.req tid).callerCond, item := none, unsafeItem := none })
        hs hmem hhanding hdone rfl rfl rfl rfl ⟨fun _ => hgot, by simp⟩
      exact ⟨_, hrun, hs', rfl, rfl, fun t ht => mem_erase_of_ne ht,
        fun t ht => update_of_ne ht _ _,
        by simp [erased, set], by simp [erased, set]⟩
    · rw [if_neg hgot]
      refine ⟨_, rfl, hs.set ?_ id id fun _ => Iff.rfl, rfl, rfl, fun _ _ => Iff.rfl,
        fun t ht => update_of_ne ht _ _, by simp, ?_⟩
      · cases hok
        constructor <;> grind [Live, hasReturned]
      · simp [hok.unsafeItem_none (Bool.eq_false_of_not_eq_true hgot)]
  · rw [if_neg hmds]
    exact ⟨s, rfl, hs, rfl, rfl, fun _ _ => Iff.rfl, fun _ _ => rfl, rfl,
      fun h => hmds (hc.listed tid hmem h)⟩

theorem Kicked.closable {mds} (h : Kicked mds s s' tid) (hc : s.Closable mds) :
    s'.Closable mds := by
  constructor
  · intro t ht hon
    by_cases heq : t = tid
    · subst heq
      exact absurd hon h.off
    · rw [h.other t heq] at hon ⊢
      exact hc.listed t ((h.pending t heq).mp ht) hon
  · intro t ht
    rw [h.dispatching] at ht
    by_cases heq : t = tid
    · subst heq
      rw [h.target]
      exact hc.idle t ht
    · rw [h.other t heq]
      exact hc.idle t ht

/-- The loop of `kick_requests_closed`: what is still on a list of the session is still to come. -/
theorem kickClosed_all_spec (mds : ℕ) (l : List ℕ) (hs : s.Inv) (hl : l.Nodup)
    (hmem : ∀ t ∈ l, t ∈ s.pending) (hc : s.Closable mds)
    (hrest : ∀ t, s.Made t → (s.req t).item = some mds ∨ (s.req t).unsafeItem = some mds → t ∈ l) :
    ∃ s', l.foldlM (kickClosed mds) s = .ok s' ∧ s'.Inv ∧
      ∀ t, s'.Made t → ¬((s'.req t).item = some mds ∨ (s'.req t).unsafeItem = some mds) := by
  induction l generalizing s with
  | nil => exact ⟨s, rfl, hs, fun t ht hon => absurd (hrest t ht hon) not_mem_nil⟩
  | cons tid l ih =>
    obtain ⟨hnot, hl⟩ := nodup_cons.mp hl
    obtain ⟨hone, hmem⟩ := forall_mem_cons.mp hmem
    obtain ⟨s1, hrun, hkick⟩ := kickClosed_spec mds hs hone hc
    have hmem1 : ∀ t ∈ l, t ∈ s1.pending := fun t ht =>
      (hkick.pending t (ne_of_mem_of_not_mem ht hnot)).mpr (hmem t ht)
    have hrest1 : ∀ t, s1.Made t →
        (s1.req t).item = some mds ∨ (s1.req t).unsafeItem = some mds → t ∈ l := by
      intro t ht hon
      by_cases heq : t = tid
      · subst heq
        exact absurd hon hkick.off
      · unfold Made at ht
        rw [hkick.lastTid] at ht
        rw [hkick.other t heq] at hon
        exact (mem_cons.mp (hrest t ht hon)).resolve_left heq
    rw [foldlM_cons, hrun, ok_bind]
    exact ih hkick.inv hl hmem1 (hkick.closable hc) hrest1

theorem kickRequestsClosed_spec (mds : ℕ) (hs : s.Inv) (hc : s.Closable mds) :
    Yields (s.kickRequestsClosed mds) Inv := by
  obtain ⟨s', hrun, hs', hempty⟩ := kickClosed_all_spec mds s.pending hs hs.nodup
    (fun _ h => h) hc <| by
    intro t ht hon
    have hok := hs.req t ht
    rcases hon with h | h
    · exact hok.item (by simp [h])
    · exact (hok.unsafeItem (by simp [h])).1
  refine ⟨s', ?_, hs'⟩
  unfold kickRequestsClosed
  rw [hrun, ok_bind, assertThat_of fun t hle hge => (not_or.mp (hempty t ⟨hge, hle⟩)).1, ok_bind,
    assertThat_of fun t hle hge => (not_or.mp (hempty t ⟨hge, hle⟩)).2]
  rfl

/-- An abort that finds the request neither on its way to an MDS nor answered. -/
theorem tick_spec (hs : s.Inv) (hidle : ∀ t, s.pending.head? = some t → (s.req t).retryAttempt = 0 ∧
    (s.req t).gotUnsafe = false ∧ (s.req t).reply = none) : Yields s.tick Inv := by
  unfold tick
  cases hhead : s.pending.head? with
  | none => exact ⟨s, rfl, hs⟩
  | some t =>
    have hmem : t ∈ s.pending := mem_of_head? hhead
    have hok := hs.ok hmem
    dsimp only
    rw [deref_eq (hs.pending_ref hmem), ok_bind]
    have hset (kick : Bool) : (s.set t { s.req t with kick := kick, aborted := true }).Inv := by
      refine hs.set ?_ id (fun _ => rfl) fun _ => Iff.rfl
      cases hok
      constructor <;> grind [Live, hasReturned]
    by_cases hcond : (s.req t).callerCond = true
    · rw [if_pos hcond, signalCaller_eq (by exact hcond) (by exact hok.caller_live hmem hcond)]
      exact ⟨_, rfl, hset true⟩
    · rw [if_neg hcond]
      exact ⟨_, rfl, hset (s.req t).kick⟩

/-! ### Runs -/

theorem call_spec (hs : s.Inv) : Yields (s.call a) Inv := by
  let tid := s.lastTid + 1
  let s1 : Requests := { s.set tid { MetaRequest.fresh with callerCond := true } with
    lastTid := tid, pending := s.pending ++ [tid] }
  have hnew : ¬s.Made tid := by unfold Made; omega
  have hmade : ∀ t, s1.Made t ↔ s.Made t ∨ t = tid := by
    intro t
    simp only [Made, s1, tid]
    omega
  have hreq : ∀ t, t ≠ tid → s1.req t = s.req t := fun t ht => update_of_ne ht _ _
  have hself : s1.req tid = { MetaRequest.fresh with callerCond := true } := update_self ..
  have hmem : tid ∈ s1.pending := mem_append_right _ (mem_singleton_self _)
  have hne : ∀ {t}, s.Made t → t ≠ tid := by
    rintro t ht rfl
    exact hnew ht
  have hpend : ∀ t, t ≠ tid → (t ∈ s1.pending) = (t ∈ s.pending) := by
    intro t ht
    simp [s1, ht]
  have hhanding : s1.handing tid = none := by
    cases hdisp : s.dispatching with
    | none => exact handing_eq_none hdisp tid
    | some d =>
      have hother : d.1 ≠ tid := hne (hs.dispatch d.1 d.2 hdisp)
      simp [handing, s1, hdisp, set, hother]
  have hs1 : s1.Inv := by
    refine ⟨?_, ?_, ?_, ?_, hs.once, ?_, ?_, hs.result, ?_⟩
    · exact nodup_append_comm.mpr (nodup_cons.mpr ⟨fun h => hnew (hs.made tid h), hs.nodup⟩)
    · intro t ht
      rcases mem_append.mp ht with ht | ht
      · exact (hmade t).mpr (.inl (hs.made t ht))
      · exact (hmade t).mpr (.inr (mem_singleton.mp ht))
    · intro t ht
      by_cases heq : t = tid
      · subst heq
        rw [hself, hhanding]
        constructor <;> simp [hmem, MetaRequest.fresh, hasReturned, Live]
      · rw [hreq t heq, hpend t heq]
        exact hs.req t (((hmade t).mp ht).resolve_right heq)
    · intro t safe hdisp
      exact (hmade t).mpr (.inl (hs.dispatch t safe hdisp))
    · intro t
      rw [hmade]
      by_cases heq : t = tid
      · subst heq
        simp only [hmem, not_true, and_false, iff_false]
        exact fun h => hnew ((hs.removed _).mp h).1
      · rw [hpend t heq]
        refine (hs.removed t).trans ?_
        simp [heq]
    · intro t why hwhy
      have ht : t ≠ tid := hne ((hs.removed t).mp (mem_map_of_mem hwhy)).1
      rw [hreq t ht]
      exact hs.why t why hwhy
    · intro t res
      rw [hmade]
      by_cases heq : t = tid
      · subst heq
        rw [hself]
        constructor
        · exact fun h => absurd ((hs.results _ res).mp h).1 hnew
        · rintro ⟨-, h⟩
          cases h
      · rw [hreq t heq]
        refine (hs.results t res).trans ?_
        simp [heq]
  have hrun := loopTop_spec a hs1 hmem (by rw [hself]; exact .inl rfl) false
  have heq : s1.set tid { s1.req tid with callerCond := false } =
      { s.set tid .fresh with lastTid := tid, pending := s.pending ++ [tid] } := by
    simp [s1, set, MetaRequest.fresh]
  rw [heq] at hrun
  exact hrun

/-- What the surroundings have to keep to: forwards and `-ESTALE` are for requests whose caller
still waits for the first reply, no reply is for an aborted request, only requests are aborted that
are not on their way to an MDS, and sessions are closed when they can be. -/
def Meets (s : Requests) : Event → Prop
  | .forward tid _ => tid ∈ s.pending → (s.req tid).gotUnsafe = false
  | .reply tid _ _ result _ _ => tid ∈ s.pending →
      (s.req tid).aborted = false ∧ (result = estale → (s.req tid).gotUnsafe = false)
  | .tick => ∀ t, s.pending.head? = some t →
      (s.req t).retryAttempt = 0 ∧ (s.req t).gotUnsafe = false ∧ (s.req t).reply = none
  | .close mds => s.Closable mds
  | _ => True

theorem step_spec (e : Event) (hs : s.Inv) (he : s.Meets e) : Yields (s.step e) Inv := by
  cases e with
  | call a => exact call_spec a hs
  | wake tid a => exact hs.guarded (wakeCaller_spec a hs)
  | finish tid res => exact hs.guarded (finish_spec res hs)
  | forward tid dest => exact hs.guarded fun hidle => handleForward_spec dest hs hidle he
  | reply tid src safe result target same =>
    exact hs.guarded fun hidle => handleReply_spec src safe result target same hs hidle
      (fun h => (he h).1) (fun h => (he h).2)
  | kickback => exact kickback_spec hs
  | kick mds => exact hs.guarded fun _ => kickRequests_spec mds hs
  | reconnect mds => exact hs.guarded fun _ => resendUnsafeRequests_spec mds hs
  | close mds => exact kickRequestsClosed_spec mds hs he
  | tick => exact tick_spec hs he

def MeetingStep (e : Event) (s s' : Requests) : Prop := s.Meets e ∧ s.step e = .ok s'

theorem trace_inv {evs} (h : Trace MeetingStep s evs s') (hs : s.Inv) : s'.Inv := by
  refine h.invariant (fun e _ t t' hstep ht => ?_) hs
  obtain ⟨t'', hrun, ht''⟩ := step_spec e ht hstep.1
  cases hstep.2.symm.trans hrun
  exact ht''

structure Sound (s : Requests) : Prop where
  /-- A call has one result. -/
  result : (s.results.map Prod.fst).Nodup
  returned : ∀ t res, (t, res) ∈ s.results ↔ s.Made t ∧ (s.req t).caller = .returned res
  /-- A request is removed once, and for a reason. -/
  once : (s.removed.map Prod.fst).Nodup
  removed : ∀ t, t ∈ s.removed.map Prod.fst ↔ s.Made t ∧ t ∉ s.pending
  why : ∀ t why, (t, why) ∈ s.removed → (why = .closed → (s.req t).gotUnsafe = true) ∧
    (why = .aborted → (s.req t).aborted = true)
  /-- After the return a request stays for its safe reply only. -/
  kept : ∀ t, s.Made t → (s.req t).caller.hasReturned = true → t ∈ s.pending →
    (s.req t).gotUnsafe = true ∨ s.dispatching = some (t, true)
  /-- It is deleted when it has been removed and its caller has returned. -/
  deleted : ∀ t, s.Made t → ((s.req t).ref = 0 ↔
    t ∉ s.pending ∧ (s.req t).caller.hasReturned = true)
  /-- The dispatcher waits for a caller that has not taken its reply. -/
  handing : ∀ t safe, s.dispatching = some (t, safe) → (s.req t).dispatchCond = true →
    (s.req t).caller.Live ∧ (s.req t).reply ≠ none

theorem Inv.sound (hs : s.Inv) : s.Sound := by
  refine ⟨hs.result, hs.results, hs.once, hs.removed, hs.why, ?_, ?_, ?_⟩
  · intro t ht hret hmem
    have hok := hs.req t ht
    have hdone : ¬(s.req t).caller.Live := by
      intro hlive
      rw [hlive.hasReturned] at hret
      cases hret
    exact ((hok.done hdone).2 hmem).2.imp_right handing_eq_some.mp
  · intro t ht
    have hok := hs.req t ht
    by_cases hmem : t ∈ s.pending
    · rw [hok.held hmem]
      split_ifs <;> simp [hmem]
    · rw [hok.dropped hmem]
      split_ifs with hret <;> simp [hmem, hret]
  · intro t safe hdisp hcond
    have hok := hs.req t (hs.dispatch t safe hdisp)
    refine ⟨?_, (hok.cond hcond).1⟩
    by_contra hdone
    rw [(hok.done hdone).1] at hcond
    cases hcond

end Requests

end CephDokan.Client
