import CephDokan.Auth.Crypto

/-!
# The cephx protocol

The authenticator builds tickets for services and replies with them to a principal; the
principal's ticket manager takes them over, builds an authorizer for a service, the service
verifies it and replies, and the principal verifies that reply. `encode` of a type is the
bytes it appends.
-/

namespace CephDokan.Auth

open Wire Encoding

/-! ### Tickets -/

structure EntityName where
  type : UInt32
  id : Bytes
  deriving DecidableEq

namespace EntityName

def encode (n : EntityName) : Bytes := le 4 n.type.toNat ++ image .string n.id

def decode : Reader EntityName := fun p => do
  let (type, p) ← word32 p
  let (id, p) ← Encoding.decode .string [] p
  return (⟨type, id⟩, p)

end EntityName

structure AuthCapsInfo where
  allowAll : Bool
  caps : Bytes
  deriving DecidableEq

namespace AuthCapsInfo

def encode (c : AuthCapsInfo) : Bytes := [1] ++ [c.allowAll.toUInt8] ++ image .bufferlist c.caps

def decode : Reader AuthCapsInfo := fun p => do
  let (_, p) ← word8 p
  let (a, p) ← word8 p
  let (caps, p) ← Encoding.decode .bufferlist [] p
  return (⟨a ≠ 0, caps⟩, p)

end AuthCapsInfo

structure AuthTicket where
  name : EntityName
  globalId : UInt64
  auid : UInt64
  created : Utime
  renewAfter : Utime
  expires : Utime
  caps : AuthCapsInfo
  flags : UInt32
  deriving DecidableEq

namespace AuthTicket

/-- `AuthTicket()`. -/
def empty : AuthTicket := ⟨⟨0, []⟩, 0, 0xffffffffffffffff, .zero, .zero, .zero, ⟨false, []⟩, 0⟩

/-- `renew_after` is not sent. -/
def encode (t : AuthTicket) : Bytes :=
  [2] ++ t.name.encode ++ le 8 t.globalId.toNat ++ le 8 t.auid.toNat ++ t.created.encode
    ++ t.expires.encode ++ t.caps.encode ++ le 4 t.flags.toNat

def decode (target : AuthTicket) : Reader AuthTicket := fun p => do
  let (structV, p) ← word8 p
  let (name, p) ← EntityName.decode p
  let (globalId, p) ← word64 p
  let (auid, p) ← if structV ≥ 2 then word64 p else .ok (0xffffffffffffffff, p)
  let (created, p) ← Utime.decode p
  let (expires, p) ← Utime.decode p
  let (caps, p) ← AuthCapsInfo.decode p
  let (flags, p) ← word32 p
  return (⟨name, globalId, auid, created, target.renewAfter, expires, caps, flags⟩, p)

end AuthTicket

structure CephXTicketBlob where
  secretId : UInt64
  blob : Bytes
  deriving DecidableEq

namespace CephXTicketBlob

def encode (b : CephXTicketBlob) : Bytes :=
  [1] ++ le 8 b.secretId.toNat ++ image .bufferlist b.blob

def decode : Reader CephXTicketBlob := fun p => do
  let (_, p) ← word8 p
  let (secretId, p) ← word64 p
  let (blob, p) ← Encoding.decode .bufferlist [] p
  return (⟨secretId, blob⟩, p)

end CephXTicketBlob

structure CephXServiceTicket where
  sessionKey : CryptoKey
  validity : Utime
  deriving DecidableEq

namespace CephXServiceTicket

def encode (t : CephXServiceTicket) : Bytes := [1] ++ t.sessionKey.encode ++ t.validity.encode

def decode : Reader CephXServiceTicket := fun p => do
  let (_, p) ← word8 p
  let (sessionKey, p) ← CryptoKey.decode p
  let (validity, p) ← Utime.decode p
  return (⟨sessionKey, validity⟩, p)

end CephXServiceTicket

structure CephXServiceTicketInfo where
  ticket : AuthTicket
  sessionKey : CryptoKey
  deriving DecidableEq

namespace CephXServiceTicketInfo

def empty : CephXServiceTicketInfo := ⟨.empty, .unset⟩

def encode (t : CephXServiceTicketInfo) : Bytes := [1] ++ t.ticket.encode ++ t.sessionKey.encode

def decode (target : CephXServiceTicketInfo) : Reader CephXServiceTicketInfo := fun p => do
  let (_, p) ← word8 p
  let (ticket, p) ← AuthTicket.decode target.ticket p
  let (sessionKey, p) ← CryptoKey.decode p
  return (⟨ticket, sessionKey⟩, p)

end CephXServiceTicketInfo

/-- `CephXAuthorize` with its `nonce`, and `CephXAuthorizeReply` with its `nonce_plus_one`. -/
structure CephXNonce where
  nonce : UInt64
  deriving DecidableEq

namespace CephXNonce

def encode (a : CephXNonce) : Bytes := [1] ++ le 8 a.nonce.toNat

def decode : Reader CephXNonce := fun p => do
  let (_, p) ← word8 p
  let (nonce, p) ← word64 p
  return (⟨nonce⟩, p)

end CephXNonce

abbrev CephXAuthorize := CephXNonce
abbrev CephXAuthorizeReply := CephXNonce

/-! ### The authenticator -/

structure CephXSessionAuthInfo where
  serviceId : UInt32
  secretId : UInt64
  ticket : AuthTicket
  sessionKey : CryptoKey
  serviceSecret : CryptoKey
  validity : Utime
  deriving DecidableEq

/-- `false` is no blob. -/
def cephxBuildServiceTicketBlob (info : CephXSessionAuthInfo) : Option CephXTicketBlob :=
  let ticketInfo : CephXServiceTicketInfo := ⟨info.ticket, info.sessionKey⟩
  match encodeEncryptEncBl ticketInfo.encode info.serviceSecret [] with
  | .error _ => none
  | .ok blob => some ⟨info.secretId, blob⟩

/-- One round of the loop over the tickets. -/
def appendTicket (principalSecret : CryptoKey) (shouldEncryptTicket : Bool)
    (ticketEncKey : CryptoKey) (reply : Bytes) (info : CephXSessionAuthInfo) : Option Bytes := do
  let reply := reply ++ le 4 info.serviceId.toNat ++ [1]
  let msgA : CephXServiceTicket := ⟨info.sessionKey, info.validity⟩
  let reply ← (encodeEncrypt msgA.encode principalSecret reply).toOption
  let blob ← cephxBuildServiceTicketBlob info
  let serviceTicketBl := blob.encode
  let reply := reply ++ [shouldEncryptTicket.toUInt8]
  if shouldEncryptTicket then
    (encodeEncrypt (image .bufferlist serviceTicketBl) ticketEncKey reply).toOption
  else return reply ++ image .bufferlist serviceTicketBl

/-- `false` is no reply. -/
def cephxBuildServiceTicketReply (principalSecret : CryptoKey)
    (ticketInfoVec : List CephXSessionAuthInfo) (shouldEncryptTicket : Bool)
    (ticketEncKey : CryptoKey) : Option Bytes :=
  ticketInfoVec.foldlM (appendTicket principalSecret shouldEncryptTicket ticketEncKey)
    ([1] ++ le 4 ticketInfoVec.length)

/-! ### The principal -/

structure CephXAuthorizer where
  bl : Bytes
  sessionKey : CryptoKey
  nonce : UInt64

structure CephXTicketHandler where
  serviceId : UInt32
  sessionKey : CryptoKey
  ticket : CephXTicketBlob
  renewAfter : Utime
  expires : Utime
  haveKeyFlag : Bool

namespace CephXTicketHandler

def new (serviceId : UInt32) : CephXTicketHandler :=
  ⟨serviceId, .unset, ⟨0, []⟩, .zero, .zero, false⟩

/-- The block with the ticket, which may be encrypted; none if it does not decrypt. -/
def takeBlock (key : CryptoKey) (ticketEnc : UInt8) (p : Cursor) :
    Except Failure (Option (Bytes × Cursor)) :=
  if ticketEnc ≠ 0 then pure (decodeDecrypt (decode .bufferlist []) key p).toOption
  else some <$> decode .bufferlist [] p

/-- A decode outside of an encrypted block throws; `false` is no handler. -/
def verifyServiceTicketReply (h : CephXTicketHandler) (now : Utime) (secret : CryptoKey)
    (p : Cursor) : Except Failure (Option (CephXTicketHandler × Cursor)) := do
  let (_, p) ← word8 p
  match decodeDecrypt CephXServiceTicket.decode secret p with
  | .error _ => return none
  | .ok (msgA, p) =>
    let (ticketEnc, p) ← word8 p
    match ← takeBlock h.sessionKey ticketEnc p with
    | none => return none
    | some (serviceTicketBl, p) =>
      let (ticket, _) ← CephXTicketBlob.decode ⟨0, serviceTicketBl⟩
      let h := { h with ticket := ticket, sessionKey := msgA.sessionKey, haveKeyFlag := true }
      if msgA.validity = .zero then return some (h, p)
      else
        let expires := now.add msgA.validity
        return some ({ h with
          expires := expires
          renewAfter := expires.subQuarter msgA.validity.sec }, p)

/-- The nonce is made of two random numbers. -/
def buildAuthorizer (h : CephXTicketHandler) (globalId nonce : UInt64) :
    Option CephXAuthorizer := do
  let bl := [1] ++ le 8 globalId.toNat ++ le 4 h.serviceId.toNat ++ h.ticket.encode
  let msg : CephXAuthorize := ⟨nonce⟩
  let bl ← (encodeEncrypt msg.encode h.sessionKey bl).toOption
  return ⟨bl, h.sessionKey, nonce⟩

end CephXTicketHandler

structure CephXTicketManager where
  ticketsMap : UInt32 → Option CephXTicketHandler
  globalId : UInt64

namespace CephXTicketManager

variable (m : CephXTicketManager)

def getHandler (type : UInt32) : CephXTicketHandler :=
  (m.ticketsMap type).getD (.new type)

def setHandler (type : UInt32) (h : CephXTicketHandler) :
    CephXTicketManager :=
  { m with ticketsMap := Function.update m.ticketsMap type (some h) }

/-- `n` more tickets, the next of which is number `i`. -/
def verifyTickets (clock : ℕ → Utime) (secret : CryptoKey) :
    ℕ → ℕ → CephXTicketManager → Cursor → Except Failure (Bool × CephXTicketManager)
  | 0, _, m, p => return (p.rest = [], m)
  | n + 1, i, m, p => do
    let (type, p) ← word32 p
    let h := m.getHandler type
    match ← h.verifyServiceTicketReply (clock i) secret p with
    | none => return (false, m.setHandler type h)
    | some (h, p) =>
      verifyTickets clock secret n (i + 1) (m.setHandler type { h with serviceId := type }) p

def verifyServiceTicketReply (clock : ℕ → Utime) (secret : CryptoKey) (p : Cursor) :
    Except Failure (Bool × CephXTicketManager) := do
  let (_, p) ← word8 p
  let (num, p) ← word 4 p
  -- the loop counts up to `(int)num`
  verifyTickets clock secret (if num < 2 ^ 31 then num else 0) 0 m p

end CephXTicketManager

/-! ### The service -/

structure KeyStore where
  getSecret : EntityName → Option CryptoKey
  getServiceSecret : UInt32 → UInt64 → Option CryptoKey

def KeyStore.lookup (keys : KeyStore) (serviceId : UInt32) (secretId : UInt64) : Option CryptoKey :=
  if secretId = 0xffffffffffffffff then keys.getSecret ⟨serviceId, []⟩
  else keys.getServiceSecret serviceId secretId

/-- What `cephx_verify_authorizer` reads before it looks for a secret. -/
def decodeAuthorizer : Reader (UInt64 × UInt32 × CephXTicketBlob) := fun p => do
  let (_, p) ← word8 p
  let (globalId, p) ← word64 p
  let (serviceId, p) ← word32 p
  let (ticket, p) ← CephXTicketBlob.decode p
  return ((globalId, serviceId, ticket), p)

/-- `false` is none; otherwise the ticket and the reply. The assertion is one of `auth_debug`. -/
def cephxVerifyAuthorizer (authDebug : Bool) (keys : KeyStore) (p : Cursor) :
    Run (Option (CephXServiceTicketInfo × Bytes)) :=
  match decodeAuthorizer p with
  | .error .endOfBuffer => return none
  | .error .malformed => .error .endOfBuffer
  | .ok ((globalId, serviceId, ticket), p) =>
    match keys.lookup serviceId ticket.secretId with
    | none => do
      assertThat (¬(ticket.secretId ≠ 0xffffffffffffffff ∧ authDebug ∧ ticket.secretId = 0))
      return none
    | some serviceSecret =>
      -- a decode that fails in here is not caught
      match decodeDecryptEncBl (CephXServiceTicketInfo.decode .empty) serviceSecret ticket.blob with
      | .error _ => .error .endOfBuffer
      | .ok (.error _) => return none
      | .ok (.ok ticketInfo) =>
        if ticketInfo.ticket.globalId ≠ globalId then return none
        else
          match decodeDecrypt CephXNonce.decode ticketInfo.sessionKey p with
          | .error _ => return none
          | .ok (authMsg, _) =>
            let reply : CephXAuthorizeReply := ⟨authMsg.nonce + 1⟩
            match encodeEncrypt reply.encode ticketInfo.sessionKey [] with
            | .error _ => return none
            | .ok replyBl => return some (ticketInfo, replyBl)

def CephXAuthorizer.verifyReply (a : CephXAuthorizer) (p : Cursor) : Bool :=
  match decodeDecrypt CephXNonce.decode a.sessionKey p with
  | .error _ => false
  | .ok (reply, _) => a.nonce + 1 = reply.nonce

end CephDokan.Auth
