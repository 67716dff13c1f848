import CephDokan.Common.Throttle

/-!
# Incoming messages and their throttles

What happens to a message from its header on: `Pipe::read_message` takes from the throttles and
gives back when the message cannot be used, the reader drops old messages and hands the others
to the delay thread, the dispatch queue or a dispatcher, and the queues may be discarded. Each
event is one such step of some thread. The three throttles are taken one after the other, and a
dispatch is two events, since other threads run while a dispatcher has the message.
-/

namespace CephDokan.Msg

/-- The dispatch throttle of the messenger, and the throttles that policies name. -/
inductive ThrottleId
  | dispatch
  | policy (i : ℕ)
  deriving DecidableEq, Repr

abbrev Throttles := ThrottleId → Throttle

/-- The throttles of a connection's policy, where it has them. -/
structure Policy where
  throttlerBytes : Option ℕ
  throttlerMessages : Option ℕ

/-- The fields of `ceph_msg_header` that are read here. -/
structure Header where
  frontLen : UInt32
  middleLen : UInt32
  dataLen : UInt32
  seq : UInt64

namespace Header

def total (h : Header) : ℕ := h.frontLen.toNat + h.middleLen.toNat + h.dataLen.toNat

/-- `header.front_len + header.middle_len + header.data_len`, three `__u32`. -/
def messageSize (h : Header) : ℕ := (h.frontLen + h.middleLen + h.dataLen).toNat

end Header

/-- A message, with the lengths of its buffers; `fast` is the answer of `ms_can_fast_dispatch`, and
`wire` tells it from one that was delivered locally. -/
structure Message where
  seq : ℕ
  fast : Bool
  wire : Bool
  payload : UInt32
  middle : UInt32
  data : UInt32
  byteThrottler : Option ℕ
  msgThrottler : Option ℕ
  dispatchThrottleSize : ℕ

/-- How far `read_message` has come with its throttles. -/
inductive Stage
  | messages
  | bytes
  | dispatch
  | ready
  deriving DecidableEq

/-- A `read_message` that is going on. -/
structure Reading where
  conn : ℕ
  policy : Policy
  header : Header
  fast : Bool
  messageSize : ℕ
  stage : Stage

inductive PipeState
  | accepting
  | connecting
  | opened
  | standby
  | closed
  | closing
  | wait
  deriving DecidableEq

structure Pipe where
  state : PipeState
  inSeq : ℕ
  policy : Policy
  delayThread : Bool
  stopFastDispatching : Bool

/-- The messenger: throttles, pipes by connection id, readers at work, the delay queues and the
dispatch queue with their connection ids, what post_dispatch has still to release, and the
messages that dispatchers hold. -/
structure Messenger where
  throttles : Throttles
  pipes : ℕ → Pipe
  readings : List Reading
  delayed : List (ℕ × Message)
  queue : List (ℕ × Message)
  dispatching : List ℕ
  held : List Message
  stop : Bool

inductive Event
  | begin (conn : ℕ) (header : Header) (fast : Bool)
  | throttle (i : ℕ)
  | fail (i : ℕ)
  | arrive (i : ℕ)
  | pipeState (conn : ℕ) (state : PipeState)
  | delayDeliver (conn : ℕ)
  | delayDiscard (conn : ℕ)
  | stealDelay (conn new : ℕ)
  | stopFastDispatching (conn : ℕ)
  | localDelivery (fast : Bool) (payload middle data : UInt32)
  | dequeue (i : ℕ)
  | postDispatch (i : ℕ)
  | discardQueue (conn : ℕ)
  | shutdown
  | clearPayload (i : ℕ)
  | clearData (i : ℕ)
  | drop (i : ℕ)

/-! ### Giving back -/

/-- `put` where there is a throttle. -/
def giveTo (ts : Throttles) (t : Option ℕ) (c : ℕ) : Run Throttles :=
  match t with
  | none => .ok ts
  | some i => Throttle.give ts (.policy i) c

/-- `SimpleMessenger::dispatch_throttle_release`. -/
def dispatchThrottleRelease (ts : Throttles) (msize : ℕ) : Run Throttles :=
  if msize ≠ 0 then Throttle.give ts .dispatch msize else .ok ts

namespace Message

/-- The destructor, which the last `put` runs. -/
def destroy (m : Message) (ts : Throttles) : Run Throttles := do
  let ts ← giveTo ts m.byteThrottler (m.payload + m.middle + m.data).toNat
  giveTo ts m.msgThrottler 1

def discard (m : Message) (ts : Throttles) : Run Throttles := do
  let ts ← dispatchThrottleRelease ts m.dispatchThrottleSize
  m.destroy ts

end Message

/-! ### Reading -/

namespace Reading

/-- The end of `read_message` with a message. -/
def message (r : Reading) : Message where
  seq := u32 r.header.seq.toNat
  fast := r.fast
  wire := true
  payload := r.header.frontLen
  middle := r.header.middleLen
  data := r.header.dataLen
  byteThrottler := r.policy.throttlerBytes
  msgThrottler := r.policy.throttlerMessages
  dispatchThrottleSize := r.messageSize

/-- `out_dethrottle`: a read failed, the footer is marked aborted, the message does not decode or
its signature is wrong. -/
def dethrottle (r : Reading) (ts : Throttles) : Run Throttles := do
  let ts ← giveTo ts r.policy.throttlerMessages 1
  if r.messageSize ≠ 0 then
    let ts ← giveTo ts r.policy.throttlerBytes r.messageSize
    dispatchThrottleRelease ts r.messageSize
  else return ts

/-- `get` from one throttle and go on to the next stage, unless it has to wait. -/
def getFrom (r : Reading) (ts : Throttles) (t : Option ThrottleId) (c : ℕ) (next : Stage) :
    Throttles × Reading :=
  match t with
  | none => (ts, { r with stage := next })
  | some i =>
    if (ts i).shouldWait c then (ts, r) else (Throttle.take ts i c, { r with stage := next })

def throttle (r : Reading) (ts : Throttles) : Throttles × Reading :=
  match r.stage with
  | .messages => r.getFrom ts (r.policy.throttlerMessages.map .policy) 1 .bytes
  | .bytes =>
    if r.messageSize ≠ 0 then
      r.getFrom ts (r.policy.throttlerBytes.map .policy) r.messageSize .dispatch
    else (ts, { r with stage := .ready })
  | .dispatch => r.getFrom ts (some .dispatch) r.messageSize .ready
  | .ready => (ts, r)

end Reading

/-! ### Delivery -/

namespace Messenger

variable (s : Messenger)

/-- `pre_dispatch`, and the dispatcher takes the message; `post_dispatch` is still to come. -/
def dispatch (m : Message) : Messenger :=
  { s with
    dispatching := m.dispatchThrottleSize :: s.dispatching
    held := { m with dispatchThrottleSize := 0 } :: s.held }

def enqueue (conn : ℕ) (m : Message) : Messenger :=
  { s with queue := s.queue ++ [(conn, m)] }

def discardAll (ms : List Message) (ts : Throttles) : Run Throttles :=
  ms.foldlM (fun ts m => m.discard ts) ts

/-- What `Pipe::reader` does with a message. -/
def receive (conn : ℕ) (m : Message) : Run Messenger :=
  let p := s.pipes conn
  if p.state = .closed ∨ p.state = .connecting ∨ m.seq ≤ p.inSeq then
    return { s with throttles := ← m.discard s.throttles }
  else
    let s := { s with pipes := Function.update s.pipes conn { p with inSeq := m.seq } }
    if p.delayThread then return { s with delayed := s.delayed ++ [(conn, m)] }
    else if m.fast then return s.dispatch m
    else return s.enqueue conn m

/-- `DelayedDelivery::entry` with a message that is due. -/
def deliverDelayed (conn : ℕ) (m : Message) : Messenger :=
  if m.fast then
    -- nothing is done with the message once fast dispatch is stopped
    if (s.pipes conn).stopFastDispatching then s else s.dispatch m
  else s.enqueue conn m

/-- `DispatchQueue::entry` with a message from the queue. -/
def deliverQueued (m : Message) : Run Messenger :=
  if s.stop then return { s with throttles := ← m.destroy s.throttles }
  else return s.dispatch m

/-- One step; an event that is not possible changes nothing. -/
def exec : Event → Run Messenger
  | .begin conn header fast =>
    let r := ⟨conn, (s.pipes conn).policy, header, fast, header.messageSize, .messages⟩
    return { s with readings := r :: s.readings }
  | .throttle i =>
    match s.readings[i]? with
    | none => return s
    | some r =>
      let (ts, r) := r.throttle s.throttles
      return { s with throttles := ts, readings := r :: s.readings.eraseIdx i }
  | .fail i =>
    match s.readings[i]? with
    | none => return s
    | some r =>
      if r.stage = .ready then
        return { s with throttles := ← r.dethrottle s.throttles, readings := s.readings.eraseIdx i }
      else return s
  | .arrive i =>
    match s.readings[i]? with
    | none => return s
    | some r =>
      if r.stage = .ready then
        receive { s with readings := s.readings.eraseIdx i } r.conn r.message
      else return s
  | .pipeState conn state =>
    return { s with pipes := Function.update s.pipes conn { s.pipes conn with state := state } }
  | .delayDeliver conn =>
    match s.delayed.find? fun e => e.1 = conn with
    | none => return s
    | some e =>
      return deliverDelayed { s with delayed := s.delayed.eraseP fun e => e.1 = conn } conn e.2
  | .delayDiscard conn => do
    let removed := s.delayed.filter fun e => e.1 = conn
    return { s with
      throttles := ← discardAll (removed.map Prod.snd) s.throttles
      delayed := s.delayed.filter fun e => e.1 ≠ conn }
  | .stealDelay conn new =>
    return { s with delayed := s.delayed.map fun e => if e.1 = conn then (new, e.2) else e }
  | .stopFastDispatching conn =>
    return { s with
      pipes := Function.update s.pipes conn { s.pipes conn with stopFastDispatching := true } }
  | .localDelivery fast payload middle data =>
    let m := ⟨0, fast, false, payload, middle, data, none, none, 0⟩
    return if fast then s.dispatch m else s.enqueue 0 m
  | .dequeue i =>
    match s.queue[i]? with
    | none => return s
    | some e => deliverQueued { s with queue := s.queue.eraseIdx i } e.2
  | .postDispatch i =>
    match s.dispatching[i]? with
    | none => return s
    | some msize =>
      return { s with
        throttles := ← dispatchThrottleRelease s.throttles msize
        dispatching := s.dispatching.eraseIdx i }
  | .discardQueue conn => do
    let removed := s.queue.filter fun e => e.1 = conn
    return { s with
      throttles := ← discardAll (removed.map Prod.snd) s.throttles
      queue := s.queue.filter fun e => e.1 ≠ conn }
  | .shutdown => return { s with stop := true }
  | .clearPayload i =>
    match s.held[i]? with
    | none => return s
    | some m =>
      return { s with
        throttles := ← giveTo s.throttles m.byteThrottler (m.payload + m.middle).toNat
        held := { m with payload := 0, middle := 0 } :: s.held.eraseIdx i }
  | .clearData i =>
    -- `claim_data` gives back as much
    match s.held[i]? with
    | none => return s
    | some m =>
      return { s with
        throttles := ← giveTo s.throttles m.byteThrottler m.data.toNat
        held := { m with data := 0 } :: s.held.eraseIdx i }
  | .drop i =>
    match s.held[i]? with
    | none => return s
    | some m =>
      return { s with throttles := ← m.destroy s.throttles, held := s.held.eraseIdx i }

end Messenger

end CephDokan.Msg
