import CephDokan.Auth.CephxProtocol

/-!
# What the handshake achieves

Every sealed value, reply and authorizer is followed from the side that makes it to the side that
takes it. With keys of type `none` all of them arrive, apart from the bytes of a secret that its
16-bit length does not count and the `renew_after` that is not sent; with any other key the blocks
are empty and nothing is accepted.
-/

namespace CephDokan.Auth

open Fallible Wire Encoding Function List CephXNonce CephXServiceTicketInfo CephXTicketManager

/-! ### Decoding what was encoded -/

section Structs

variable (off : ℕ) (rest : Bytes)

theorem ok_at {τ : Type} {x} {off off'} {rest : Bytes} (h : off = off') :
    (.ok (x, ⟨off, rest⟩) : Except Failure (τ × Cursor)) = .ok (x, ⟨off', rest⟩) := by rw [h]

/-- The name with what the length of its id counts. -/
def EntityName.stored (n : EntityName) : EntityName := { n with id := n.id.take (u32 n.id.length) }

theorem decode_string (s t : Bytes) : Encoding.decode .string t ⟨off, image .string s ++ rest⟩
      = .ok (s.take (u32 s.length), ⟨off + (image .string s).length, rest⟩) := by
  have hlen : (s.take (u32 s.length)).length = u32 s.length := by
    rw [length_take]
    exact Nat.min_eq_left (Nat.mod_le _ _)
  have hword := (Reads.copy (le 4 s.length)).map leVal
  rw [leVal_le, length_le] at hword
  have hcopy := Reads.copy (s.take (u32 s.length))
  rw [hlen] at hcopy
  exact hword.bind (k := fun len => copy len) hcopy off rest

theorem EntityName.decode_append (n : EntityName) :
    EntityName.decode ⟨off, n.encode ++ rest⟩ = .ok (n.stored, ⟨off + n.encode.length, rest⟩) := by
  simp only [decode, encode, append_assoc, word32_le, decode_string, ok_bind, pure_eq_ok]
  apply ok_at
  rw [length_append, length_le, Nat.add_assoc]

theorem AuthCapsInfo.decode_append {c : AuthCapsInfo} (h : c.caps.length < 2 ^ 32) :
    AuthCapsInfo.decode ⟨off, c.encode ++ rest⟩ = .ok (c, ⟨off + c.encode.length, rest⟩) := by
  have hbool : decide (c.allowAll.toUInt8 ≠ 0) = c.allowAll := by cases c.allowAll <;> rfl
  simp only [decode, encode, cons_append, nil_append, word8_cons, ok_bind,
    decode_bufferlist _ _ h, hbool, pure_eq_ok]
  apply ok_at
  simp only [length_cons]
  omega

/-- What a decode into `target` makes of a ticket. -/
def AuthTicket.stored (t target : AuthTicket) : AuthTicket :=
  { t with name := t.name.stored, renewAfter := target.renewAfter }

theorem AuthTicket.decode_append {t : AuthTicket} (h : t.caps.caps.length < 2 ^ 32)
    (target : AuthTicket) : AuthTicket.decode target ⟨off, t.encode ++ rest⟩
      = .ok (t.stored target, ⟨off + t.encode.length, rest⟩) := by
  have hversion : (2 : UInt8) ≥ 2 := by decide
  simp only [decode, encode, append_assoc, cons_append, nil_append, word8_cons,
    word64_le, word32_le, EntityName.decode_append, Utime.decode_append,
    AuthCapsInfo.decode_append _ _ h, ok_bind, hversion, if_true, pure_eq_ok]
  apply ok_at
  simp only [length_cons, length_append, Utime.length_encode, length_le]
  omega

theorem CephXTicketBlob.decode_append {b : CephXTicketBlob} (h : b.blob.length < 2 ^ 32) :
    CephXTicketBlob.decode ⟨off, b.encode ++ rest⟩ = .ok (b, ⟨off + b.encode.length, rest⟩) := by
  simp only [decode, encode, append_assoc, cons_append, nil_append, word8_cons,
    word64_le, ok_bind, decode_bufferlist _ _ h, pure_eq_ok]
  apply ok_at
  simp only [length_cons, length_append, length_le]
  omega

theorem CephXNonce.decode_append (a : CephXNonce) :
    decode ⟨off, a.encode ++ rest⟩ = .ok (a, ⟨off + a.encode.length, rest⟩) := by
  simp only [decode, encode, cons_append, nil_append, word8_cons, word64_le, ok_bind, pure_eq_ok]
  apply ok_at
  simp only [length_cons, length_le]

/-- The session key comes last, so nothing is read from the bytes that its length leaves out. -/
theorem CephXServiceTicketInfo.decode_append {t : CephXServiceTicketInfo}
    (h : t.ticket.caps.caps.length < 2 ^ 32) (target : CephXServiceTicketInfo) :
    ∃ q, decode target ⟨off, t.encode ++ rest⟩
      = .ok (⟨t.ticket.stored target.ticket, t.sessionKey.stored⟩, q) := by
  simp only [decode, encode, append_assoc, cons_append, nil_append, word8_cons,
    AuthTicket.decode_append _ _ h, CryptoKey.decode_append, ok_bind,
    pure_eq_ok]
  exact ⟨_, rfl⟩

theorem Utime.decode_of_le {p} (h : 8 ≤ p.rest.length) : ∃ t q, Utime.decode p = .ok (t, q) := by
  have hword {q : Cursor} (hq : 4 ≤ q.rest.length) :
      ∃ x, word32 q = .ok (x, ⟨q.off + 4, q.rest.drop 4⟩) := by
    refine ⟨UInt32.ofNat (leVal (q.rest.take 4)), ?_⟩
    rw [word32, word, copy, if_neg (by omega)]
    rfl
  obtain ⟨sec, hsec⟩ := hword (q := p) (by omega)
  obtain ⟨nsec, hnsec⟩ := hword (q := ⟨p.off + 4, p.rest.drop 4⟩) (by rw [length_drop]; omega)
  rw [Utime.decode, hsec, ok_bind]
  dsimp only
  rw [hnsec]
  exact ⟨_, _, rfl⟩

/-- A secret that is too long is cut, and the validity is read from what is left of it. -/
theorem CephXServiceTicket.decode_append (t : CephXServiceTicket) :
    ∃ v q, CephXServiceTicket.decode ⟨off, t.encode ++ rest⟩ = .ok (⟨t.sessionKey.stored, v⟩, q)
      ∧ (t.sessionKey.secret.length < 2 ^ 16 → v = t.validity) := by
  simp only [decode, encode, append_assoc, cons_append, nil_append, word8_cons,
    CryptoKey.decode_append, ok_bind]
  by_cases hlen : t.sessionKey.secret.length < 2 ^ 16
  · have hcounted : t.sessionKey.counted = t.sessionKey.secret.length := Nat.mod_eq_of_lt hlen
    rw [hcounted, drop_length, nil_append, Utime.decode_append]
    exact ⟨t.validity, _, rfl, fun _ => rfl⟩
  · obtain ⟨v, q, hv⟩ := Utime.decode_of_le
      (p := ⟨off + 1 + 12 + t.sessionKey.counted, t.sessionKey.secret.drop t.sessionKey.counted
        ++ (t.validity.encode ++ rest)⟩)
      (by simp only [length_append, Utime.length_encode]; omega)
    rw [hv]
    exact ⟨v, q, rfl, fun h => absurd h hlen⟩

end Structs

/-! ### Sealed values -/

variable {bl : Bytes}

section Values

variable {τ : Type} {read : Reader τ} {key : CryptoKey} {value : Bytes} {t : τ}

/-- What `encode_encrypt` makes of a value is opened again by `decode_decrypt`. -/
def Opens (read : Reader τ) (key : CryptoKey) (value : Bytes) (t : τ) : Prop :=
  ∃ bl, encodeEncrypt value key [] = .ok bl
    ∧ ∀ off rest, decodeDecrypt read key ⟨off, bl ++ rest⟩ = .ok (t, ⟨off + bl.length, rest⟩)

theorem length_sealed_le (key : CryptoKey) (value : Bytes) :
    (sealed key value).length ≤ 13 + value.length := by
  rw [sealed, image, length_append, length_le]
  split_ifs
  · rw [length_plain]
    omega
  · rw [length_nil]
    omega

theorem opens_iff (hlen : 13 + value.length < 2 ^ 32) :
    Opens read key value t ↔ key.type = cryptoNone ∧ ∃ q, read ⟨9, value⟩ = .ok (t, q) := by
  have hsealed := (length_sealed_le key value).trans_lt hlen
  have hbuild := encodeEncrypt_eq key value []
  rw [nil_append] at hbuild
  constructor
  · rintro ⟨bl, hbl, hopen⟩
    rw [hbuild] at hbl
    cases hbl
    obtain ⟨hkey, -, hread, -⟩ := (decodeDecrypt_sealed hsealed 0 []).mp (hopen 0 [])
    exact ⟨hkey, hread⟩
  · rintro ⟨hkey, q, hread⟩
    exact ⟨_, hbuild, decodeDecrypt_open hkey hkey hread hsealed⟩

theorem EntityName.stored_eq_iff (n : EntityName) : n.stored = n ↔ n.id.length < 2 ^ 32 := by
  have hlen : n.stored.id.length = u32 n.id.length := by
    rw [stored, length_take]
    exact Nat.min_eq_left (Nat.mod_le _ _)
  constructor
  · intro h
    rw [h] at hlen
    rw [hlen]
    exact Nat.mod_lt _ (by decide)
  · intro h
    rw [stored, u32_of_lt h, take_length]

theorem AuthTicket.stored_eq_iff (t target : AuthTicket) :
    t.stored target = t ↔ t.name.id.length < 2 ^ 32 ∧ t.renewAfter = target.renewAfter := by
  rw [← EntityName.stored_eq_iff]
  constructor
  · intro h
    exact ⟨congrArg AuthTicket.name h, (congrArg AuthTicket.renewAfter h).symm⟩
  · rintro ⟨hname, hrenew⟩
    rw [stored, hname, ← hrenew]

theorem serviceTicket_opens_iff {t} (hlen : 13 + t.encode.length < 2 ^ 32) :
    Opens CephXServiceTicket.decode key t.encode t
      ↔ key.type = cryptoNone ∧ t.sessionKey.secret.length < 2 ^ 16 := by
  obtain ⟨v, q, hdecode, hvalid⟩ := t.decode_append 9 []
  rw [append_nil] at hdecode
  rw [opens_iff hlen, hdecode, ← t.sessionKey.stored_eq_iff]
  apply and_congr_right
  intro _
  constructor
  · rintro ⟨q', h⟩
    have hvalue := congrArg Prod.fst (Except.ok.inj h)
    exact congrArg CephXServiceTicket.sessionKey hvalue
  · intro hstored
    rw [hstored, hvalid (t.sessionKey.stored_eq_iff.mp hstored)]
    exact ⟨q, rfl⟩

theorem ticketInfo_opens_iff {t : CephXServiceTicketInfo} (hlen : 13 + t.encode.length < 2 ^ 32)
    (target : CephXServiceTicketInfo) : Opens (decode target) key t.encode t
      ↔ key.type = cryptoNone ∧ t.sessionKey.secret.length < 2 ^ 16
        ∧ t.ticket.name.id.length < 2 ^ 32
        ∧ t.ticket.renewAfter = target.ticket.renewAfter := by
  have hcaps : t.ticket.caps.caps.length < 2 ^ 32 := by
    simp only [CephXServiceTicketInfo.encode, AuthTicket.encode, AuthCapsInfo.encode, image,
      length_append] at hlen
    omega
  obtain ⟨q, hdecode⟩ := decode_append 9 [] hcaps target
  rw [append_nil] at hdecode
  rw [opens_iff hlen, hdecode, ← t.sessionKey.stored_eq_iff, ← t.ticket.stored_eq_iff]
  apply and_congr_right
  intro _
  constructor
  · rintro ⟨q', h⟩
    have hvalue := congrArg Prod.fst (Except.ok.inj h)
    exact ⟨congrArg sessionKey hvalue, congrArg ticket hvalue⟩
  · rintro ⟨hkey, hticket⟩
    rw [hkey, hticket]
    exact ⟨q, rfl⟩

theorem CephXNonce.length_encode (a : CephXNonce) : a.encode.length = 9 := by
  rfl

theorem nonce_opens_iff (a : CephXNonce) : Opens decode key a.encode a ↔ key.type = cryptoNone := by
  have hdecode := a.decode_append 9 []
  rw [append_nil] at hdecode
  rw [opens_iff (by rw [a.length_encode]; decide), hdecode]
  exact and_iff_left ⟨_, rfl⟩

theorem bufferlist_opens_iff (hlen : 17 + bl.length < 2 ^ 32) :
    Opens (decode .bufferlist []) key (image .bufferlist bl) bl ↔ key.type = cryptoNone := by
  have hbl : bl.length < 2 ^ 32 := by omega
  have hdecode := decode_bufferlist 9 [] hbl []
  rw [append_nil] at hdecode
  rw [opens_iff (by rw [image, length_append, length_le]; omega), hdecode]
  exact and_iff_left ⟨_, rfl⟩

end Values

/-! ### The reply with the tickets -/

section Tickets

variable (principal ticketEnc : CryptoKey) (should : Bool)

def CephXSessionAuthInfo.blob (info : CephXSessionAuthInfo) : CephXTicketBlob where
  secretId := info.secretId
  blob :=
    if info.serviceSecret.type = cryptoNone then
      plain (encode ⟨info.ticket, info.sessionKey⟩)
    else []

variable (info : CephXSessionAuthInfo)

theorem cephxBuildServiceTicketBlob_eq : cephxBuildServiceTicketBlob info = some info.blob := by
  rw [cephxBuildServiceTicketBlob, encodeEncryptEncBl, encrypt_eq]
  rfl

def ticketBytes : Bytes :=
  [1] ++ (sealed principal (CephXServiceTicket.encode ⟨info.sessionKey, info.validity⟩)
    ++ ([should.toUInt8] ++
      if should then sealed ticketEnc (image .bufferlist info.blob.encode)
      else image .bufferlist info.blob.encode))

def replyEntry : Bytes :=
  le 4 info.serviceId.toNat ++ ticketBytes principal ticketEnc should info

theorem appendTicket_eq (reply : Bytes) (info : CephXSessionAuthInfo) :
    appendTicket principal should ticketEnc reply info
      = some (reply ++ replyEntry principal ticketEnc should info) := by
  unfold appendTicket replyEntry ticketBytes
  simp only [encodeEncrypt_eq, cephxBuildServiceTicketBlob_eq, Except.toOption]
  cases should <;> simp

theorem cephxBuildServiceTicketReply_eq (infos : List CephXSessionAuthInfo) :
    cephxBuildServiceTicketReply principal infos should ticketEnc
      = some ([1] ++ le 4 infos.length ++
        infos.flatMap (replyEntry principal ticketEnc should)) := by
  have hfold (reply : Bytes) :
      infos.foldlM (appendTicket principal should ticketEnc) reply
        = some (reply ++ infos.flatMap (replyEntry principal ticketEnc should)) := by
    induction infos generalizing reply with
    | nil => exact congrArg some (append_nil reply).symm
    | cons info infos ih =>
      rw [foldlM_cons, appendTicket_eq]
      show List.foldlM _ _ infos = _
      rw [ih, flatMap_cons, append_assoc]
  exact hfold _

/-- The keys that have to be of type `none` for the next ticket to be taken, where `held` is the
type of the handler's key. -/
def Passes (held : UInt16) : Prop :=
  principal.type = cryptoNone ∧ (should = true → ticketEnc.type = cryptoNone ∧ held = cryptoNone)

variable {principal ticketEnc should}

def ticketBlock (ticketEnc : CryptoKey) (should : Bool) (bl : Bytes) : Bytes :=
  if should then sealed ticketEnc (image .bufferlist bl) else image .bufferlist bl

theorem takeBlock_pass {key}
    (hpass : should = true → ticketEnc.type = cryptoNone ∧ key.type = cryptoNone)
    (hlen : (ticketBlock ticketEnc should bl).length < 2 ^ 32) (off : ℕ) (rest : Bytes) :
    ∃ off', CephXTicketHandler.takeBlock key should.toUInt8
      ⟨off, ticketBlock ticketEnc should bl ++ rest⟩
        = .ok (some (bl, ⟨off', rest⟩)) ∧ bl.length < 2 ^ 32 := by
  unfold CephXTicketHandler.takeBlock ticketBlock at *
  cases should with
  | false =>
    rw [if_neg Bool.false_ne_true, image, length_append] at hlen
    have hbl : bl.length < 2 ^ 32 := by omega
    rw [if_neg Bool.false_ne_true, if_neg (by decide), decode_bufferlist _ _ hbl]
    exact ⟨_, rfl, hbl⟩
  | true =>
    obtain ⟨henc, hkey⟩ := hpass rfl
    rw [if_pos rfl] at hlen
    have hbl : bl.length < 2 ^ 32 := by
      rw [sealed, if_pos henc, image, length_append, length_plain, image, length_append] at hlen
      omega
    have hread := decode_bufferlist 9 [] hbl []
    rw [append_nil] at hread
    rw [if_pos rfl, if_pos (by decide), decodeDecrypt_open henc hkey hread hlen]
    exact ⟨_, rfl, hbl⟩

theorem takeBlock_refuse {key} (hrefuse : ¬(ticketEnc.type = cryptoNone ∧ key.type = cryptoNone))
    (hlen : (ticketBlock ticketEnc true bl).length < 2 ^ 32) (off : ℕ) (rest : Bytes) :
    CephXTicketHandler.takeBlock key true.toUInt8 ⟨off, ticketBlock ticketEnc true bl ++ rest⟩ =
      .ok none := by
  rw [ticketBlock, if_pos rfl] at hlen ⊢
  rw [CephXTicketHandler.takeBlock, if_pos (by decide)]
  cases hopen : decodeDecrypt (decode .bufferlist []) key
      ⟨off, sealed ticketEnc (image .bufferlist bl) ++ rest⟩ with
  | error e => rfl
  | ok r =>
    obtain ⟨henc, hkey, -⟩ := (decodeDecrypt_sealed hlen off rest).mp hopen
    exact absurd ⟨henc, hkey⟩ hrefuse

variable {info : CephXSessionAuthInfo} {infos : List CephXSessionAuthInfo} {m : CephXTicketManager}

section OneTicket

variable {h : CephXTicketHandler}
  (hlen : (ticketBytes principal ticketEnc should info).length < 2 ^ 32) (now : Utime) (off : ℕ)
  (rest : Bytes)

include hlen

theorem verifyServiceTicketReply_eq (hprincipal : principal.type = cryptoNone) :
    ∃ v, ∃ off', h.verifyServiceTicketReply now principal
        ⟨off, ticketBytes principal ticketEnc should info ++ rest⟩
      = (CephXTicketHandler.takeBlock h.sessionKey should.toUInt8
          ⟨off', ticketBlock ticketEnc should info.blob.encode ++ rest⟩ >>= fun block =>
        match block with
        | none => .ok none
        | some (bl, p) => CephXTicketBlob.decode ⟨0, bl⟩ >>= fun t =>
          let h := { h with
            ticket := t.1, sessionKey := info.sessionKey.stored, haveKeyFlag := true }
          if v = .zero then .ok (some (h, p))
          else
            .ok (some ({ h with
              expires := now.add v
              renewAfter := (now.add v).subQuarter v.sec }, p))) := by
  obtain ⟨v, q, hread, -⟩ := CephXServiceTicket.decode_append 9 []
    ⟨info.sessionKey, info.validity⟩
  rw [append_nil] at hread
  have hsealed : (sealed principal
      (CephXServiceTicket.encode ⟨info.sessionKey, info.validity⟩)).length < 2 ^ 32 := by
    rw [ticketBytes, length_append, length_append] at hlen
    omega
  have hopen := decodeDecrypt_open hprincipal hprincipal hread hsealed (off + 1)
    ([should.toUInt8] ++ (ticketBlock ticketEnc should info.blob.encode ++ rest))
  have hbytes : ticketBytes principal ticketEnc should info ++ rest
      = 1 :: (sealed principal (CephXServiceTicket.encode ⟨info.sessionKey, info.validity⟩)
        ++ ([should.toUInt8] ++ (ticketBlock ticketEnc should info.blob.encode ++ rest))) := by
    simp only [ticketBytes, ticketBlock, append_assoc, cons_append, nil_append]
  refine ⟨v, off + 1 + (sealed principal
    (CephXServiceTicket.encode ⟨info.sessionKey, info.validity⟩)).length + 1, ?_⟩
  rw [CephXTicketHandler.verifyServiceTicketReply, hbytes, word8_cons, ok_bind]
  dsimp only
  rw [hopen]
  dsimp only
  rw [singleton_append, word8_cons, ok_bind]
  rfl

theorem length_ticketBlock_lt :
    (ticketBlock ticketEnc should info.blob.encode).length < 2 ^ 32 := by
  simp only [ticketBytes, length_append] at hlen
  rw [ticketBlock]
  omega

theorem verifyServiceTicketReply_pass
    (hpass : Passes principal ticketEnc should h.sessionKey.type) :
    ∃ h' off', h.verifyServiceTicketReply now principal
        ⟨off, ticketBytes principal ticketEnc should info ++ rest⟩ = .ok (some (h', ⟨off', rest⟩))
      ∧ h'.sessionKey = info.sessionKey.stored ∧ h'.ticket = info.blob ∧ h'.haveKeyFlag = true := by
  obtain ⟨v, off1, heq⟩ := verifyServiceTicketReply_eq (h := h) hlen now off rest hpass.1
  obtain ⟨off', htake, hbl⟩ := takeBlock_pass hpass.2 (length_ticketBlock_lt hlen) off1 rest
  have hblob : info.blob.blob.length < 2 ^ 32 := by
    simp only [CephXTicketBlob.encode, image, length_append] at hbl
    omega
  have hdecode := CephXTicketBlob.decode_append 0 [] hblob
  rw [append_nil] at hdecode
  rw [heq, htake, ok_bind]
  dsimp only
  rw [hdecode, ok_bind]
  split_ifs
  · exact ⟨_, off', rfl, rfl, rfl, rfl⟩
  · exact ⟨_, off', rfl, rfl, rfl, rfl⟩

theorem verifyServiceTicketReply_refuse
    (hpass : ¬Passes principal ticketEnc should h.sessionKey.type) :
    h.verifyServiceTicketReply now principal
        ⟨off, ticketBytes principal ticketEnc should info ++ rest⟩ = .ok none := by
  by_cases hprincipal : principal.type = cryptoNone
  · obtain ⟨v, off1, heq⟩ := verifyServiceTicketReply_eq (h := h) hlen now off rest hprincipal
    cases should with
    | false => exact absurd ⟨hprincipal, fun hs => nomatch hs⟩ hpass
    | true =>
      rw [heq, takeBlock_refuse (fun hboth => hpass ⟨hprincipal, fun _ => hboth⟩)
        (length_ticketBlock_lt hlen)]
      rfl
  · rw [CephXTicketHandler.verifyServiceTicketReply, ticketBytes, append_assoc,
      singleton_append, word8_cons, ok_bind]
    dsimp only
    rw [decodeDecrypt_of_ne hprincipal]
    rfl

end OneTicket

variable (principal ticketEnc should) in
/-- The tickets are taken one after the other, and each leaves its session key with the handler. -/
def AllPass : (UInt32 → UInt16) → List CephXSessionAuthInfo → Prop
  | _, [] => True
  | held, info :: infos =>
    Passes principal ticketEnc should (held info.serviceId)
      ∧ AllPass (update held info.serviceId info.sessionKey.type) infos

def lastFor (infos : List CephXSessionAuthInfo) (service : UInt32) : Option CephXSessionAuthInfo :=
  infos.reverse.find? fun info => info.serviceId = service

def CephXTicketManager.held (m : CephXTicketManager) (service : UInt32) : UInt16 :=
  (m.getHandler service).sessionKey.type

structure Took (h : CephXTicketHandler) (info : CephXSessionAuthInfo) : Prop where
  serviceId : h.serviceId = info.serviceId
  sessionKey : h.sessionKey = info.sessionKey.stored
  ticket : h.ticket = info.blob
  haveKeyFlag : h.haveKeyFlag = true

theorem held_setHandler (m : CephXTicketManager) (service : UInt32) (h : CephXTicketHandler) :
    (m.setHandler service h).held = update m.held service h.sessionKey.type := by
  funext s
  simp only [held, getHandler, setHandler]
  by_cases hs : s = service
  · rw [hs, update_self, update_self, Option.getD_some]
  · rw [update_of_ne hs, update_of_ne hs]
    rfl

theorem lastFor_cons (info : CephXSessionAuthInfo) (infos : List CephXSessionAuthInfo)
    (service : UInt32) : lastFor (info :: infos) service
      = (lastFor infos service).or (if info.serviceId = service then some info else none) := by
  rw [lastFor, reverse_cons, find?_append, find?_singleton]
  simp only [decide_eq_true_eq]
  rfl

theorem word32_entry (info : CephXSessionAuthInfo) (off : ℕ) (rest : Bytes) :
    word32 ⟨off, replyEntry principal ticketEnc should info ++ rest⟩
      = .ok (info.serviceId, ⟨off + 4, ticketBytes principal ticketEnc should info ++ rest⟩) := by
  rw [replyEntry, append_assoc, word32_le]

theorem length_ticketBytes_lt
    (hlen : ((info :: infos).flatMap (replyEntry principal ticketEnc should)).length < 2 ^ 32) :
    (ticketBytes principal ticketEnc should info).length < 2 ^ 32
      ∧ (infos.flatMap (replyEntry principal ticketEnc should)).length < 2 ^ 32 := by
  rw [flatMap_cons, length_append, replyEntry, length_append] at hlen
  omega

theorem verifyTickets_cons (hpass : Passes principal ticketEnc should (m.held info.serviceId))
    (hlen : (ticketBytes principal ticketEnc should info).length < 2 ^ 32) (clock : ℕ → Utime)
    (n i off : ℕ) (rest : Bytes) : ∃ h off', Took h info
      ∧ verifyTickets clock principal (n + 1) i m
          ⟨off, replyEntry principal ticketEnc should info ++ rest⟩
        = verifyTickets clock principal n (i + 1) (m.setHandler info.serviceId h) ⟨off', rest⟩ := by
  obtain ⟨h, off', hrun, hkey, hticket, hflag⟩ :=
    verifyServiceTicketReply_pass hlen (clock i) (off + 4) rest hpass
  refine ⟨{ h with serviceId := info.serviceId }, off', ⟨rfl, hkey, hticket, hflag⟩, ?_⟩
  rw [verifyTickets, word32_entry, ok_bind]
  dsimp only
  rw [hrun]
  rfl

/-- The loop takes all tickets if each of them passes, and the handlers are as the last ones for
their services left them. -/
theorem verifyTickets_spec
    (hlen : (infos.flatMap (replyEntry principal ticketEnc should)).length < 2 ^ 32)
    (clock : ℕ → Utime) (i off : ℕ) : ∃ b m', verifyTickets clock principal infos.length i m
        ⟨off, infos.flatMap (replyEntry principal ticketEnc should)⟩ = .ok (b, m')
      ∧ (b = true ↔ AllPass principal ticketEnc should m.held infos)
      ∧ (b = true → ∀ service, match lastFor infos service with
        | none => m'.ticketsMap service = m.ticketsMap service
        | some info => ∃ h, m'.ticketsMap service = some h ∧ Took h info) := by
  induction infos generalizing m i off with
  | nil => exact ⟨true, m, rfl, iff_of_true rfl trivial, fun _ _ => rfl⟩
  | cons info infos ih =>
    obtain ⟨hticket, hrest⟩ := length_ticketBytes_lt hlen
    rw [length_cons, flatMap_cons]
    by_cases hfirst : Passes principal ticketEnc should (m.held info.serviceId)
    · obtain ⟨h, off', htook, hrun⟩ := verifyTickets_cons hfirst hticket clock infos.length i off
        (infos.flatMap (replyEntry principal ticketEnc should))
      obtain ⟨b, m', hrun', hpass, hlast⟩ :=
        ih (m := m.setHandler info.serviceId h) hrest (i + 1) off'
      rw [held_setHandler, htook.sessionKey] at hpass
      refine ⟨b, m', hrun.trans hrun', hpass.trans (and_iff_right hfirst).symm, ?_⟩
      intro hb service
      have hservice := hlast hb service
      rw [lastFor_cons]
      cases hfound : lastFor infos service with
      | some later =>
        rw [hfound] at hservice
        exact hservice
      | none =>
        -- no later ticket for this service, so the handler is as this round left it
        rw [hfound] at hservice
        rw [Option.none_or]
        split_ifs with hid
        · refine ⟨h, ?_, htook⟩
          rw [hservice, ← hid]
          exact update_self _ _ _
        · rw [hservice]
          exact update_of_ne (Ne.symm hid) _ _
    · refine ⟨false, m.setHandler info.serviceId (m.getHandler info.serviceId), ?_,
        iff_of_false Bool.false_ne_true fun h => hfirst h.1, fun h => absurd h Bool.false_ne_true⟩
      rw [verifyTickets, word32_entry, ok_bind]
      dsimp only
      rw [verifyServiceTicketReply_refuse hticket _ _ _ hfirst]
      rfl

variable (principal ticketEnc should) in
theorem two_mul_length_le (infos : List CephXSessionAuthInfo) :
    2 * infos.length ≤ (infos.flatMap (replyEntry principal ticketEnc should)).length := by
  induction infos with
  | nil => exact Nat.le_refl 0
  | cons info infos ih =>
    rw [length_cons, flatMap_cons, length_append, replyEntry, length_append, length_le]
    omega

variable (principal ticketEnc should) in
/-- The reply is accepted, and the handlers have the session keys and tickets it was built from. -/
def Accepted (m : CephXTicketManager) (clock : ℕ → Utime) (infos : List CephXSessionAuthInfo) :
    Prop :=
  ∃ reply m', cephxBuildServiceTicketReply principal infos should ticketEnc = some reply
    ∧ m.verifyServiceTicketReply clock principal ⟨0, reply⟩ = .ok (true, m')
    ∧ ∀ service info, lastFor infos service = some info → ∃ h, m'.ticketsMap service = some h
      ∧ h.sessionKey = info.sessionKey ∧ cephxBuildServiceTicketBlob info = some h.ticket

section

variable (m : CephXTicketManager) (clock : ℕ → Utime)
  (hlen : (infos.flatMap (replyEntry principal ticketEnc should)).length < 2 ^ 32)

include hlen

theorem verifyServiceTicketReply_reply : m.verifyServiceTicketReply clock principal
        ⟨0, [1] ++ le 4 infos.length ++ infos.flatMap (replyEntry principal ticketEnc should)⟩
      = verifyTickets clock principal infos.length 0 m
          ⟨0 + 1 + 4, infos.flatMap (replyEntry principal ticketEnc should)⟩ := by
  have hcount := two_mul_length_le principal ticketEnc should infos
  have hword := word_reads (w := 4) (n := infos.length) (by omega) (0 + 1)
    (infos.flatMap (replyEntry principal ticketEnc should))
  rw [length_le] at hword
  rw [verifyServiceTicketReply, append_assoc, singleton_append, word8_cons, ok_bind]
  dsimp only
  rw [hword, ok_bind]
  rw [if_pos (by omega)]

theorem accepted_iff : Accepted principal ticketEnc should m clock infos
      ↔ AllPass principal ticketEnc should m.held infos
        ∧ ∀ service info, lastFor infos service = some info →
          info.sessionKey.secret.length < 2 ^ 16 := by
  obtain ⟨b, m', hrun, hpass, hlast⟩ := verifyTickets_spec (m := m) hlen clock 0 (0 + 1 + 4)
  have htook (hb : b = true) (service : UInt32) (info : CephXSessionAuthInfo)
      (hinfo : lastFor infos service = some info) :
      ∃ h, m'.ticketsMap service = some h ∧ Took h info := by
    have hservice := hlast hb service
    rw [hinfo] at hservice
    exact hservice
  rw [← hpass]
  constructor
  · rintro ⟨reply, m'', hreply, hverify, hsame⟩
    rw [cephxBuildServiceTicketReply_eq] at hreply
    cases hreply
    rw [verifyServiceTicketReply_reply m clock hlen, hrun] at hverify
    cases hverify
    refine ⟨rfl, fun service info hinfo => ?_⟩
    obtain ⟨h, hh, htake⟩ := htook rfl service info hinfo
    obtain ⟨h', hh', hkey, -⟩ := hsame service info hinfo
    rw [hh] at hh'
    cases hh'
    rw [htake.sessionKey] at hkey
    exact info.sessionKey.stored_eq_iff.mp hkey
  · rintro ⟨rfl, hshort⟩
    refine ⟨_, m', cephxBuildServiceTicketReply_eq _ _ _ _, ?_, fun service info hinfo => ?_⟩
    · rw [verifyServiceTicketReply_reply m clock hlen, hrun]
    · obtain ⟨h, hh, htake⟩ := htook rfl service info hinfo
      refine ⟨h, hh, ?_, ?_⟩
      · rw [htake.sessionKey]
        exact info.sessionKey.stored_eq_iff.mpr (hshort service info hinfo)
      · rw [htake.ticket]
        exact cephxBuildServiceTicketBlob_eq info

end

end Tickets

/-! ### The authorizer and its reply -/

section Authorizers

variable {h : CephXTicketHandler} {globalId nonce : UInt64} {a : CephXAuthorizer} {keys : KeyStore}
  {authDebug : Bool} {t : CephXServiceTicketInfo} {reply : Bytes}

def authorizerBytes (h : CephXTicketHandler) (globalId nonce : UInt64) : Bytes :=
  [1] ++ le 8 globalId.toNat ++ le 4 h.serviceId.toNat ++ h.ticket.encode
    ++ sealed h.sessionKey (encode ⟨nonce⟩)

theorem buildAuthorizer_eq (h : CephXTicketHandler) (globalId nonce : UInt64) :
    h.buildAuthorizer globalId nonce
      = some ⟨authorizerBytes h globalId nonce, h.sessionKey, nonce⟩ := by
  unfold CephXTicketHandler.buildAuthorizer
  dsimp only
  rw [encodeEncrypt_eq]
  rfl

theorem decodeAuthorizer_bytes (hlen : (authorizerBytes h globalId nonce).length < 2 ^ 32) :
    ∃ off, decodeAuthorizer ⟨0, authorizerBytes h globalId nonce⟩
      = .ok ((globalId, h.serviceId, h.ticket), ⟨off, sealed h.sessionKey (encode ⟨nonce⟩)⟩) := by
  have hblob : h.ticket.blob.length < 2 ^ 32 := by
    simp only [authorizerBytes, CephXTicketBlob.encode, image, length_append] at hlen
    omega
  unfold decodeAuthorizer authorizerBytes
  simp only [append_assoc, cons_append, nil_append, word8_cons, word64_le,
    word32_le, CephXTicketBlob.decode_append _ _ hblob, ok_bind, pure_eq_ok]
  exact ⟨_, rfl⟩

theorem length_nonce (k : CryptoKey) (a : CephXNonce) : (sealed k a.encode).length < 2 ^ 32 := by
  have hlen := a.length_encode
  have hsealed := length_sealed_le k a.encode
  omega

variable {k k' : CryptoKey}

theorem decodeDecrypt_nonce {a b} {off} {q}
    (hopen : decodeDecrypt decode k' ⟨off, sealed k a.encode⟩ = .ok (b, q)) :
    k.type = cryptoNone ∧ k'.type = cryptoNone ∧ b = a := by
  have hdecode := a.decode_append 9 []
  rw [append_nil] at hdecode
  rw [← append_nil (sealed k a.encode)] at hopen
  obtain ⟨hk, hk', ⟨q', hread⟩, -⟩ := (decodeDecrypt_sealed (length_nonce k a) off []).mp hopen
  rw [hdecode] at hread
  exact ⟨hk, hk', (congrArg Prod.fst (Except.ok.inj hread)).symm⟩

theorem decodeDecrypt_nonce_ok (hk : k.type = cryptoNone) (hk' : k'.type = cryptoNone)
    (a : CephXNonce) (off : ℕ) :
    ∃ q, decodeDecrypt decode k' ⟨off, sealed k a.encode⟩ = .ok (a, q) := by
  have hdecode := a.decode_append 9 []
  rw [append_nil] at hdecode
  have hopen := decodeDecrypt_open hk hk' hdecode (length_nonce k a) off []
  rw [append_nil] at hopen
  exact ⟨_, hopen⟩

theorem cephxVerifyAuthorizer_reply (hbuild : h.buildAuthorizer globalId nonce = some a)
    (hlen : a.bl.length < 2 ^ 32)
    (hrun : cephxVerifyAuthorizer authDebug keys ⟨0, a.bl⟩ = .ok (some (t, reply))) :
    reply = sealed t.sessionKey (encode ⟨nonce + 1⟩) := by
  rw [buildAuthorizer_eq] at hbuild
  cases hbuild
  obtain ⟨off, hdecode⟩ := decodeAuthorizer_bytes hlen
  rw [cephxVerifyAuthorizer, hdecode] at hrun
  dsimp only at hrun
  cases hkey : keys.lookup h.serviceId h.ticket.secretId with
  | none =>
    rw [hkey] at hrun
    obtain ⟨_, -, hnone⟩ := bind_eq_ok.mp hrun
    cases hnone
  | some secret =>
    rw [hkey] at hrun
    dsimp only at hrun
    split at hrun
    · cases hrun
    · cases hrun
    · split_ifs at hrun
      · cases hrun
      · split at hrun
        · cases hrun
        · next authMsg q hopen =>
          rw [encodeEncrypt_eq] at hrun
          cases hrun
          rw [(decodeDecrypt_nonce hopen).2.2, nil_append]

theorem verifyReply_iff (a : CephXAuthorizer) (k : CryptoKey) (n : UInt64) :
    a.verifyReply ⟨0, sealed k (encode ⟨n⟩)⟩ = true
      ↔ k.type = cryptoNone ∧ a.sessionKey.type = cryptoNone ∧ n = a.nonce + 1 := by
  rw [CephXAuthorizer.verifyReply]
  constructor
  · intro h
    split at h
    · cases h
    · next b q hopen =>
      obtain ⟨hk, hk', rfl⟩ := decodeDecrypt_nonce hopen
      exact ⟨hk, hk', (of_decide_eq_true h).symm⟩
  · rintro ⟨hk, hk', rfl⟩
    obtain ⟨q, hopen⟩ := decodeDecrypt_nonce_ok hk hk' ⟨a.nonce + 1⟩ 0
    rw [hopen]
    exact decide_eq_true rfl

def Authorized (h : CephXTicketHandler) (keys : KeyStore) (authDebug : Bool)
    (globalId nonce : UInt64) : Prop :=
  ∃ a t reply, h.buildAuthorizer globalId nonce = some a
    ∧ cephxVerifyAuthorizer authDebug keys ⟨0, a.bl⟩ = .ok (some (t, reply))
    ∧ a.verifyReply ⟨0, reply⟩ = true

theorem authorized_iff {info : CephXSessionAuthInfo} (htook : Took h info)
    (hkeys : keys.lookup info.serviceId info.secretId = some info.serviceSecret)
    (hlen : (authorizerBytes h info.ticket.globalId nonce).length < 2 ^ 32) :
    Authorized h keys authDebug info.ticket.globalId nonce
      ↔ info.serviceSecret.type = cryptoNone ∧ info.sessionKey.type = cryptoNone := by
  have hsecret : keys.lookup h.serviceId h.ticket.secretId = some info.serviceSecret := by
    rw [htook.serviceId, htook.ticket]
    exact hkeys
  have hblob : h.ticket.blob = info.blob.blob := by rw [htook.ticket]
  have htype : h.sessionKey.type = info.sessionKey.type := by
    rw [htook.sessionKey]
    rfl
  obtain ⟨off, hdecode⟩ := decodeAuthorizer_bytes hlen
  constructor
  · rintro ⟨a, t, reply, hbuild, hrun, hreply⟩
    rw [buildAuthorizer_eq] at hbuild
    cases hbuild
    obtain rfl := cephxVerifyAuthorizer_reply (buildAuthorizer_eq h _ nonce) hlen hrun
    obtain ⟨-, hkey, -⟩ := (verifyReply_iff _ _ _).mp hreply
    refine ⟨?_, htype ▸ hkey⟩
    by_contra hservice
    rw [cephxVerifyAuthorizer, hdecode] at hrun
    dsimp only at hrun
    rw [hsecret] at hrun
    dsimp only at hrun
    rw [decodeDecryptEncBl_of_ne hservice] at hrun
    cases hrun
  · rintro ⟨hservice, hkey⟩
    have hplain : h.ticket.blob = plain (encode ⟨info.ticket, info.sessionKey⟩) := by
      rw [hblob]
      exact if_pos hservice
    have hcaps : info.ticket.caps.caps.length < 2 ^ 32 := by
      simp only [authorizerBytes, CephXTicketBlob.encode, hplain, plain, image,
        CephXServiceTicketInfo.encode, AuthTicket.encode, AuthCapsInfo.encode,
        length_append] at hlen
      omega
    obtain ⟨q, hinfo⟩ := CephXServiceTicketInfo.decode_append 9 []
      (t := ⟨info.ticket, info.sessionKey⟩) hcaps .empty
    rw [append_nil] at hinfo
    have hstored : info.sessionKey.stored.type = cryptoNone := hkey
    obtain ⟨q', hopen⟩ := decodeDecrypt_nonce_ok (htype.trans hkey) hstored ⟨nonce⟩ off
    refine ⟨_, ⟨info.ticket.stored .empty, info.sessionKey.stored⟩,
      sealed info.sessionKey.stored (encode ⟨nonce + 1⟩),
      buildAuthorizer_eq h _ nonce, ?_, ?_⟩
    · rw [cephxVerifyAuthorizer, hdecode]
      dsimp only
      rw [hsecret]
      dsimp only
      rw [hplain, decodeDecryptEncBl_plain hservice, hinfo]
      dsimp only [Except.map]
      have hglobal : (info.ticket.stored empty.ticket).globalId = info.ticket.globalId := rfl
      rw [if_neg (not_not.mpr hglobal), hopen]
      dsimp only
      rw [encodeEncrypt_eq]
      rfl
    · exact (verifyReply_iff _ _ _).mpr ⟨hkey, htype.trans hkey, rfl⟩

end Authorizers

/-- What each step of the handshake needs. A value is opened with the key that sealed it exactly
when that key is of type `none` and the encoding keeps the whole value; a reply is accepted with
its session keys and tickets exactly when every key that is used on the way is of type `none` and
the session keys that stay have secrets whose length fits; an authorizer and its reply are accepted
exactly when the service secret and the session key are of type `none`; and no reply to another
nonce is. -/
theorem handshake_iff (principal ticketEnc : CryptoKey) (should : Bool)
    (infos : List CephXSessionAuthInfo) (m : CephXTicketManager) (clock : ℕ → Utime)
    (hsize : ∀ reply, cephxBuildServiceTicketReply principal infos should ticketEnc = some reply →
      reply.length < 2 ^ 32) :
    (∀ (key : CryptoKey) (t : CephXServiceTicket), 13 + t.encode.length < 2 ^ 32 →
        (Opens CephXServiceTicket.decode key t.encode t
          ↔ key.type = cryptoNone ∧ t.sessionKey.secret.length < 2 ^ 16))
      ∧ (∀ (key : CryptoKey) (t target : CephXServiceTicketInfo), 13 + t.encode.length < 2 ^ 32 →
        (Opens (decode target) key t.encode t
          ↔ key.type = cryptoNone ∧ t.sessionKey.secret.length < 2 ^ 16
            ∧ t.ticket.name.id.length < 2 ^ 32
            ∧ t.ticket.renewAfter = target.ticket.renewAfter))
      ∧ (∀ (key : CryptoKey) (bl : Bytes), 17 + bl.length < 2 ^ 32 →
        (Opens (decode .bufferlist []) key (image .bufferlist bl) bl ↔ key.type = cryptoNone))
      ∧ (∀ (key : CryptoKey) (a : CephXNonce),
        Opens decode key a.encode a ↔ key.type = cryptoNone)
      ∧ (Accepted principal ticketEnc should m clock infos
        ↔ AllPass principal ticketEnc should m.held infos
          ∧ ∀ service info, lastFor infos service = some info →
            info.sessionKey.secret.length < 2 ^ 16)
      ∧ (∀ (h : CephXTicketHandler) (info : CephXSessionAuthInfo) (keys : KeyStore)
          (authDebug : Bool) (nonce : UInt64), Took h info →
        keys.lookup info.serviceId info.secretId = some info.serviceSecret →
        (∀ a, h.buildAuthorizer info.ticket.globalId nonce = some a → a.bl.length < 2 ^ 32) →
        (Authorized h keys authDebug info.ticket.globalId nonce
          ↔ info.serviceSecret.type = cryptoNone ∧ info.sessionKey.type = cryptoNone))
      ∧ (∀ (a a' : CephXAuthorizer) (h : CephXTicketHandler) (globalId nonce : UInt64)
          (authDebug : Bool) (keys : KeyStore) (t : CephXServiceTicketInfo) (reply : Bytes),
        h.buildAuthorizer globalId nonce = some a' → a'.bl.length < 2 ^ 32 →
        cephxVerifyAuthorizer authDebug keys ⟨0, a'.bl⟩ = .ok (some (t, reply)) →
        nonce ≠ a.nonce → a.verifyReply ⟨0, reply⟩ = false) := by
  have hreply := hsize _ (cephxBuildServiceTicketReply_eq principal ticketEnc should infos)
  rw [length_append] at hreply
  refine ⟨fun key t hlen => serviceTicket_opens_iff hlen,
    fun key t target hlen => ticketInfo_opens_iff hlen target,
    fun key bl hlen => bufferlist_opens_iff hlen, fun key a => nonce_opens_iff a,
    accepted_iff m clock (by omega), ?_, ?_⟩
  · intro h info keys authDebug nonce htook hkeys hlen
    exact authorized_iff htook hkeys (hlen _ (buildAuthorizer_eq h _ nonce))
  · intro a a' h globalId nonce authDebug keys t reply hbuild hlen hrun hne
    obtain rfl := cephxVerifyAuthorizer_reply hbuild hlen hrun
    rw [← Bool.not_eq_true, verifyReply_iff]
    rintro ⟨-, -, hnonce⟩
    exact hne ((UInt64.add_left_inj 1).mp hnonce)

/-- Keys of one type for everything, for a ticket of service 4. -/
def sampleKey (type : UInt16) : CryptoKey := ⟨type, .zero, [7]⟩

def sampleInfo (type : UInt16) : CephXSessionAuthInfo :=
  ⟨4, 1, .empty, sampleKey type, sampleKey type, ⟨60, 0⟩⟩

def noTickets : CephXTicketManager := ⟨fun _ => none, 0⟩

theorem handshake_none :
    Accepted (sampleKey cryptoNone) (sampleKey cryptoNone) true noTickets (fun _ => ⟨100, 0⟩)
      [sampleInfo cryptoNone] := by
  have hall := handshake_iff (sampleKey cryptoNone) (sampleKey cryptoNone) true
    [sampleInfo cryptoNone] noTickets (fun _ => ⟨100, 0⟩) (by
      intro reply hreply
      cases hreply
      decide +kernel)
  apply hall.2.2.2.2.1.mpr
  refine ⟨⟨⟨rfl, fun _ => ⟨rfl, rfl⟩⟩, trivial⟩, fun service info hinfo => ?_⟩
  have hmem := mem_of_find?_eq_some hinfo
  rw [reverse_singleton, mem_singleton] at hmem
  rw [hmem]
  decide

/-- With AES nothing gets through: a sealed nonce is not opened, the reply with the ticket is
refused, and the authorizer that a handler with the right key and ticket builds makes the service
throw. -/
theorem aes_refused :
    (∃ bl, encodeEncrypt (encode ⟨5⟩) (sampleKey cryptoAES) [] = .ok bl
        ∧ decodeDecrypt decode (sampleKey cryptoAES) ⟨0, bl⟩
          = .error "error decoding block for decryption")
      ∧ (∃ reply m', cephxBuildServiceTicketReply (sampleKey cryptoAES) [sampleInfo cryptoAES] false
          (sampleKey cryptoAES) = some reply
        ∧ noTickets.verifyServiceTicketReply (fun _ => ⟨100, 0⟩) (sampleKey cryptoAES) ⟨0, reply⟩
          = .ok (false, m'))
      ∧ ∃ blob a, cephxBuildServiceTicketBlob (sampleInfo cryptoAES) = some blob
        ∧ CephXTicketHandler.buildAuthorizer
          ⟨4, sampleKey cryptoAES, blob, .zero, .zero, true⟩ 0 5 = some a
        ∧ cephxVerifyAuthorizer false ⟨fun _ => none, fun _ _ => some (sampleKey cryptoAES)⟩
          ⟨0, a.bl⟩ = .error .endOfBuffer := by
  refine ⟨⟨_, rfl, rfl⟩, ⟨_, _, rfl, rfl⟩, _, _, rfl, rfl, rfl⟩

end CephDokan.Auth
