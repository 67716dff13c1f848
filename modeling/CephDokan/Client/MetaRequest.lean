import CephDokan.Common.Buffer

/-!
# Requests to an MDS

`make_request` puts a request into `mds_requests`, sends it and waits; the dispatcher hands the
reply over and waits until the caller has taken it. Both sides find each other through two
pointers to condition variables in the request. A step of the model is what one thread does
between two of its waits. A signal through a null pointer, or to the condition variable of a
caller that has returned, is a fault, as is any access to a request that has been deleted.
-/

namespace CephDokan.Client

/-- `-ESTALE`, the result with which a request is sent to the auth MDS. -/
def estale : ℤ := -116

/-- `-ETIMEDOUT`, the result of an aborted request. -/
def etimedout : ℤ := -110

/-- Where the caller of `make_request` is: it waits for an MDS map or a session, it waits for the
reply, it has taken the reply and verifies its trace, or it has returned. -/
inductive Caller
  | waiting
  | awaiting
  | verifying
  | returned (r : ℤ)
  deriving DecidableEq

def Caller.hasReturned : Caller → Bool
  | .returned _ => true
  | _ => false

/-- A `MetaRequest`, with the place of its caller. -/
structure MetaRequest where
  /-- The MDS that was asked last. -/
  mds : Option ℕ
  resendMds : Option ℕ
  retryAttempt : ℕ
  /-- The object is deleted when this gets 0. -/
  ref : ℕ
  /-- The result in the reply that is to be taken. -/
  reply : Option ℤ
  kick : Bool
  aborted : Bool
  gotUnsafe : Bool
  /-- The pointers are not null. -/
  callerCond : Bool
  dispatchCond : Bool
  /-- The sessions on whose `requests` and `unsafe_requests` the request is. -/
  item : Option ℕ
  unsafeItem : Option ℕ
  caller : Caller
  deriving DecidableEq

namespace MetaRequest

/-- A request as `make_request` enters it: one reference of the caller, one of `mds_requests`. -/
def fresh : MetaRequest :=
  ⟨none, none, 0, 2, none, false, false, false, false, false, none, none, .waiting⟩

/-- `caller_cond->Signal()` -/
def signalCaller (r : MetaRequest) : Run Unit :=
  if r.callerCond ∧ ¬r.caller.hasReturned then .ok () else .error .dangling

end MetaRequest

/-- Why a request left `mds_requests`. -/
inductive Removal
  | safe
  | closed
  | aborted
  deriving DecidableEq

structure Requests where
  lastTid : ℕ
  /-- The numbers in `mds_requests`, in order. -/
  pending : List ℕ
  req : ℕ → MetaRequest
  /-- The request whose reply the dispatcher hands over, and whether the reply is a safe one. -/
  dispatching : Option (ℕ × Bool)
  /-- What was removed from `mds_requests`, and what the calls returned. -/
  removed : List (ℕ × Removal)
  results : List (ℕ × ℤ)

namespace Requests

def initial : Requests := ⟨0, [], fun _ => .fresh, none, [], []⟩

variable (s : Requests) (tid : ℕ)

def set (r : MetaRequest) : Requests :=
  { s with req := Function.update s.req tid r }

def deref : Run MetaRequest :=
  if (s.req tid).ref = 0 then .error .dangling else .ok (s.req tid)

/-- `put_request`; the destructor wants the request off all lists. -/
def putRequest : Run Requests := do
  let r ← s.deref tid
  assertThat (r.ref = 1 → r.item = none ∧ r.unsafeItem = none)
  return s.set tid { r with ref := r.ref - 1 }

/-- `item.remove_myself()`, `mds_requests.erase` and `put_request`. -/
def remove (why : Removal) : Run Requests := do
  let r ← s.deref tid
  { s.set tid { r with item := none } with
    pending := s.pending.erase tid
    removed := s.removed ++ [(tid, why)] }.putRequest tid

/-- `send_request` -/
def sendRequest (tid mds : ℕ) : Run Requests := do
  let r ← s.deref tid
  if r.aborted then s.remove tid .aborted
  else
    return s.set tid
      { r with retryAttempt := r.retryAttempt + 1, mds := some mds, item := some mds }

/-! ### The caller -/

/-- What an iteration of the loop of `make_request` finds: it has to wait for a map or a session,
or the session to an MDS is open. -/
inductive Attempt
  | wait
  | send (mds : ℕ)

/-- The loop behind its check for an abort. `choose_target_mds` takes `resend_mds`. -/
def attempt (a : Attempt) : Run Requests := do
  let r ← s.deref tid
  let s := s.set tid { r with callerCond := true, resendMds := none }
  match a with
  | .wait => return s.set tid { s.req tid with caller := .waiting }
  | .send mds =>
    let s ← s.sendRequest tid mds
    return s.set tid { s.req tid with kick := false, caller := .awaiting }

def return_ (res : ℤ) : Requests :=
  { s.set tid { s.req tid with caller := .returned res } with results := s.results ++ [(tid, res)] }

/-- `make_request` behind the loop, up to the trace of the reply. -/
def leaveLoop : Run Requests := do
  let r ← s.deref tid
  match r.reply with
  | some _ =>
    assertThat (r.dispatchCond = true)
    return s.set tid { r with reply := none, dispatchCond := false, caller := .verifying }
  | none =>
    assertThat (r.aborted = true)
    assertThat (r.gotUnsafe = false)
    let s ← (if r.retryAttempt = 0 then s.remove tid .aborted else .ok s : Run Requests)
    let s ← s.putRequest tid
    return s.return_ tid etimedout

def loopTop (a : Attempt) : Run Requests := do
  let r ← s.deref tid
  if r.aborted then s.leaveLoop tid else s.attempt tid a

/-- `make_request` up to its first wait. -/
def call (a : Attempt) : Run Requests :=
  let tid := s.lastTid + 1
  { s.set tid .fresh with lastTid := tid, pending := s.pending ++ [tid] }.loopTop tid a

def wakeCaller (a : Attempt) : Run Requests :=
  match (s.req tid).caller with
  | .waiting => s.loopTop tid a
  | .awaiting => do
    let r ← s.deref tid
    if r.reply.isSome ∨ r.resendMds.isSome ∨ r.kick then
      let s := s.set tid { r with callerCond := false }
      if r.reply.isSome then s.leaveLoop tid else s.loopTop tid a
    else return s
  | _ => .ok s

/-- The end of `make_request`, with what the verification of the trace made of the result. -/
def finish (res : ℤ) : Run Requests :=
  if (s.req tid).caller = .verifying then do
    let s ← s.putRequest tid
    return s.return_ tid res
  else .ok s

/-! ### The dispatcher -/

/-- `handle_client_request_forward` -/
def handleForward (tid dest : ℕ) : Run Requests :=
  if tid ∈ s.pending then do
    let r ← s.deref tid
    let r := { r with retryAttempt := 0, mds := none, resendMds := some dest }
    r.signalCaller
    return s.set tid r
  else .ok s

/-- The end of `handle_client_reply` for a safe reply. -/
def finishReply : Run Requests := do
  let r ← s.deref tid
  let s := if r.gotUnsafe then s.set tid { r with unsafeItem := none } else s
  s.remove tid .safe

def takeReply (tid src : ℕ) (safe : Bool) (result : ℤ) : Run Requests := do
  let r ← s.deref tid
  assertThat (r.reply = none)
  let r := { r with reply := some result }
  let r := if safe then r else { r with gotUnsafe := true, unsafeItem := some src }
  if ¬safe ∨ ¬r.gotUnsafe then do
    r.signalCaller
    return { s.set tid { r with dispatchCond := true } with dispatching := some (tid, safe) }
  else (s.set tid r).finishReply tid

/-- `handle_client_reply`. For `-ESTALE`, `target` is the MDS that `choose_target_mds` finds, and
`same` says that the cap for it has not moved since the request was sent. -/
def handleReply (tid src : ℕ) (safe : Bool) (result : ℤ) (target : Option ℕ) (same : Bool) :
    Run Requests :=
  if tid ∈ s.pending then do
    let r ← s.deref tid
    if r.gotUnsafe ∧ ¬safe then return s
    else if result = estale then
      let target := r.resendMds.or target
      let r' := { r with resendMds := target }
      if target.isSome ∧ target = r.mds ∧ same then (s.set tid r').takeReply tid src safe result
      else do
        r'.signalCaller
        return s.set tid r'
    else s.takeReply tid src safe result
  else .ok s

def kickback : Run Requests :=
  match s.dispatching with
  | none => .ok s
  | some (tid, safe) => do
    let r ← s.deref tid
    if r.dispatchCond then return s
    else
      let s := { s with dispatching := none }
      if safe then s.finishReply tid else return s

/-! ### Sessions -/

/-- `kick_requests` -/
def kickRequests (mds : ℕ) : Run Requests :=
  s.pending.foldlM (fun s tid => do
    let r ← s.deref tid
    if r.gotUnsafe = false ∧ r.retryAttempt = 0 ∧ r.mds = some mds then s.sendRequest tid mds
    else return s) s

/-- `resend_unsafe_requests`. The requests with an unsafe reply are walked in the order of their
numbers here, in the source in the order of the replies. -/
def resendUnsafeRequests (mds : ℕ) : Run Requests := do
  let s ← s.pending.foldlM (fun s tid => do
    let r ← s.deref tid
    if r.unsafeItem = some mds then s.sendRequest tid mds else return s) s
  s.pending.foldlM (fun s tid => do
    let r ← s.deref tid
    if r.gotUnsafe = false ∧ r.retryAttempt ≠ 0 ∧ r.mds = some mds then s.sendRequest tid mds
    else return s) s

/-- One round of `kick_requests_closed`. -/
def kickClosed (mds : ℕ) (s : Requests) (tid : ℕ) : Run Requests := do
  let r ← s.deref tid
  if r.mds = some mds then do
    let r ← (if r.callerCond then do
        r.signalCaller
        return { r with kick := true }
      else return r : Run MetaRequest)
    let r := { r with item := none }
    if r.gotUnsafe then (s.set tid { r with unsafeItem := none }).remove tid .closed
    else return s.set tid r
  else return s

/-- `kick_requests_closed` -/
def kickRequestsClosed (mds : ℕ) : Run Requests := do
  let s ← s.pending.foldlM (kickClosed mds) s
  assertThat (∀ tid ≤ s.lastTid, 1 ≤ tid → (s.req tid).item ≠ some mds)
  assertThat (∀ tid ≤ s.lastTid, 1 ≤ tid → (s.req tid).unsafeItem ≠ some mds)
  return s

/-- The abort in `tick`, once the oldest request is older than the mount timeout. -/
def tick : Run Requests :=
  match s.pending.head? with
  | none => .ok s
  | some tid => do
    let r ← s.deref tid
    let r := { r with aborted := true }
    if r.callerCond then do
      r.signalCaller
      return s.set tid { r with kick := true }
    else return s.set tid r

inductive Event
  | call (a : Attempt)
  | wake (tid : ℕ) (a : Attempt)
  | finish (tid : ℕ) (res : ℤ)
  | forward (tid dest : ℕ)
  | reply (tid src : ℕ) (safe : Bool) (result : ℤ) (target : Option ℕ) (same : Bool)
  | kickback
  | kick (mds : ℕ)
  | reconnect (mds : ℕ)
  | close (mds : ℕ)
  | tick

/-- A step of some thread; the dispatcher takes no message while it hands a reply over. A session
can also be closed by another thread than the dispatcher. -/
def step : Event → Run Requests
  | .call a => s.call a
  | .wake tid a => if 1 ≤ tid ∧ tid ≤ s.lastTid then s.wakeCaller tid a else .ok s
  | .finish tid res => if 1 ≤ tid ∧ tid ≤ s.lastTid then s.finish tid res else .ok s
  | .forward tid dest => if s.dispatching = none then s.handleForward tid dest else .ok s
  | .reply tid src safe result target same =>
    if s.dispatching = none then s.handleReply tid src safe result target same else .ok s
  | .kickback => s.kickback
  | .kick mds => if s.dispatching = none then s.kickRequests mds else .ok s
  | .reconnect mds => if s.dispatching = none then s.resendUnsafeRequests mds else .ok s
  | .close mds => s.kickRequestsClosed mds
  | .tick => s.tick

def run (evs : List Event) : Run Requests := evs.foldlM step initial

end Requests

end CephDokan.Client
