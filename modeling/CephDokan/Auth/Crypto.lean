import CephDokan.Include.RoundTrip
import CephDokan.Include.Utime

/-!
# Keys and sealed values

A `CryptoKey` names the handler that encrypts for it. `CryptoNone` copies; `CryptoAES` has its
body commented out, so it leaves its output as it was. Encrypted values travel as a block of
bytes with a magic number in front of the value.
-/

namespace CephDokan

open Fallible Wire Encoding List

namespace Auth

/-! ### Words and times -/

def word8 : Reader UInt8 := fun p => do
  let (n, p) ← word 1 p
  return (UInt8.ofNat n, p)

def word16 : Reader UInt16 := fun p => do
  let (n, p) ← word 2 p
  return (UInt16.ofNat n, p)

def word32 : Reader UInt32 := fun p => do
  let (n, p) ← word 4 p
  return (UInt32.ofNat n, p)

def word64 : Reader UInt64 := fun p => do
  let (n, p) ← word 8 p
  return (UInt64.ofNat n, p)

end Auth

/-- The bytes that `encode` appends. -/
def Utime.encode (t : Utime) : Bytes := Wire.le 4 t.sec.toNat ++ Wire.le 4 t.nsec.toNat

def Utime.decode : Reader Utime := fun p => do
  let (sec, p) ← Auth.word32 p
  let (nsec, p) ← Auth.word32 p
  return (⟨sec, nsec⟩, p)

namespace Auth

/-! ### Keys -/

structure CryptoKey where
  type : UInt16
  created : Utime
  secret : Bytes
  deriving DecidableEq, Repr

def cryptoNone : UInt16 := 0
def cryptoAES : UInt16 := 1

namespace CryptoKey

def unset : CryptoKey := ⟨0, .zero, []⟩

/-- The length of the secret goes into a `__u16`, its bytes are all appended. -/
def encode (k : CryptoKey) : Bytes :=
  le 2 k.type.toNat ++ k.created.encode ++ le 2 k.secret.length ++ k.secret

def decode : Reader CryptoKey := fun p => do
  let (type, p) ← word16 p
  let (created, p) ← Utime.decode p
  let (len, p) ← word 2 p
  let (secret, p) ← copy len p
  return (⟨type, created, secret⟩, p)

end CryptoKey

/-! ### Handlers -/

/-- `encrypt(secret, in, out, error)`: the new `out`, unless an error was set. -/
structure CryptoHandler where
  encrypt : Bytes → Bytes → Bytes → Except String Bytes
  decrypt : Bytes → Bytes → Bytes → Except String Bytes

def CryptoNone : CryptoHandler where
  encrypt _ input _ := .ok input
  decrypt _ input _ := .ok input

def CryptoAES : CryptoHandler where
  encrypt _ _ out := .ok out
  decrypt _ _ out := .ok out

/-- `CephContext::get_crypto_handler`. -/
def getCryptoHandler (type : UInt16) : Option CryptoHandler :=
  if type = cryptoNone then some CryptoNone
  else if type = cryptoAES then some CryptoAES
  else none

namespace CryptoKey

/-- Without a handler a message is made up, and `error` is not set to it. -/
def encrypt (k : CryptoKey) (input out : Bytes) : Except String Bytes :=
  match getCryptoHandler k.type with
  | none => .ok out
  | some h => h.encrypt k.secret input out

def decrypt (k : CryptoKey) (input out : Bytes) : Except String Bytes :=
  match getCryptoHandler k.type with
  | none => .ok out
  | some h => h.decrypt k.secret input out

end CryptoKey

/-! ### Encode and encrypt -/

/-- `AUTH_ENC_MAGIC`. -/
def authEncMagic : UInt64 := 0xff009cad8826aa55

/-- Seal a value that is encoded as `value`. -/
def encodeEncryptEncBl (value : Bytes) (key : CryptoKey) (out : Bytes) : Except String Bytes :=
  let bl := [1] ++ le 8 authEncMagic.toNat ++ value
  key.encrypt bl out

def encodeEncrypt (value : Bytes) (key : CryptoKey) (out : Bytes) : Except String Bytes := do
  let blEnc ← encodeEncryptEncBl value key []
  return out ++ image .bufferlist blEnc

/-- A decode that fails throws, a wrong magic number is an error. -/
def decodeDecryptEncBl {τ : Type} (read : Reader τ) (key : CryptoKey) (blEnc : Bytes) :
    Except Failure (Except String τ) :=
  match key.decrypt blEnc [] with
  | .error e => .ok (.error e)
  | .ok bl => do
    let (_, p) ← word8 ⟨0, bl⟩
    let (magic, p) ← word64 p
    if magic ≠ authEncMagic then
      return .error (s!"bad magic in decode_decrypt, {magic} != {authEncMagic}")
    else
      let (t, _) ← read p
      return .ok t

def decodeDecrypt {τ : Type} (read : Reader τ) (key : CryptoKey) (p : Cursor) :
    Except String (τ × Cursor) :=
  match (do
    let (blEnc, p) ← decode .bufferlist [] p
    let r ← decodeDecryptEncBl read key blEnc
    return (r, p) : Except Failure (Except String τ × Cursor)) with
  | .error _ => .error "error decoding block for decryption"
  | .ok (.error e, _) => .error e
  | .ok (.ok t, p) => .ok (t, p)

/-! ### Reading back -/

section Reading

variable (off : ℕ) (rest : Bytes)

@[simp] theorem word8_cons (x : UInt8) : word8 ⟨off, x :: rest⟩ = .ok (x, ⟨off + 1, rest⟩) := by
  have h := (byte_reads x).map UInt8.ofNat off rest
  rwa [UInt8.ofNat_toNat] at h

@[simp] theorem word16_le (x : UInt16) :
    word16 ⟨off, le 2 x.toNat ++ rest⟩ = .ok (x, ⟨off + 2, rest⟩) := by
  have h := (word_reads (w := 2) x.toNat_lt).map UInt16.ofNat off rest
  rwa [UInt16.ofNat_toNat, length_le] at h

@[simp] theorem word32_le (x : UInt32) :
    word32 ⟨off, le 4 x.toNat ++ rest⟩ = .ok (x, ⟨off + 4, rest⟩) := by
  have h := (word_reads (w := 4) x.toNat_lt).map UInt32.ofNat off rest
  rwa [UInt32.ofNat_toNat, length_le] at h

@[simp] theorem word64_le (x : UInt64) :
    word64 ⟨off, le 8 x.toNat ++ rest⟩ = .ok (x, ⟨off + 8, rest⟩) := by
  have h := (word_reads (w := 8) x.toNat_lt).map UInt64.ofNat off rest
  rwa [UInt64.ofNat_toNat, length_le] at h

theorem decode_bufferlist {bl} (h : bl.length < 2 ^ 32) (t : Bytes) :
    decode .bufferlist t ⟨off, image .bufferlist bl ++ rest⟩
      = .ok (bl, ⟨off + (image .bufferlist bl).length, rest⟩) :=
  decode_reads .bufferlist bl t h off rest

@[simp] theorem Utime.decode_append (t : Utime) :
    Utime.decode ⟨off, t.encode ++ rest⟩ = .ok (t, ⟨off + 8, rest⟩) := by
  simp only [Utime.decode, Utime.encode, append_assoc, word32_le, ok_bind]
  rfl

@[simp] theorem Utime.length_encode (t : Utime) : t.encode.length = 8 := by
  rw [Utime.encode, length_append, length_le, length_le]

end Reading

namespace CryptoKey

variable (k : CryptoKey)

def counted : ℕ := k.secret.length % 2 ^ 16

/-- What a decode makes of the key. -/
def stored : CryptoKey := { k with secret := k.secret.take k.counted }

theorem counted_le : k.counted ≤ k.secret.length := Nat.mod_le _ _

theorem stored_eq_iff : k.stored = k ↔ k.secret.length < 2 ^ 16 := by
  have hlen : k.stored.secret.length = k.counted := by
    rw [stored, length_take, Nat.min_eq_left k.counted_le]
  constructor
  · intro h
    rw [h] at hlen
    rw [hlen]
    exact Nat.mod_lt _ (by decide)
  · intro h
    have hcounted : k.counted = k.secret.length := Nat.mod_eq_of_lt h
    rw [stored, hcounted, take_length]

@[simp] theorem decode_append (off : ℕ) (rest : Bytes) : decode ⟨off, k.encode ++ rest⟩
      = .ok (k.stored, ⟨off + 12 + k.counted, k.secret.drop k.counted ++ rest⟩) := by
  have hword : word 2 ⟨off + 2 + 8, le 2 k.secret.length ++ (k.secret ++ rest)⟩
      = .ok (k.counted, ⟨off + 2 + 8 + 2, k.secret ++ rest⟩) := by
    have h := (Reads.copy (le 2 k.secret.length)).map leVal (off + 2 + 8) (k.secret ++ rest)
    rw [length_le, leVal_le] at h
    exact h
  have hsecret : k.secret ++ rest
      = k.secret.take k.counted ++ (k.secret.drop k.counted ++ rest) := by
    rw [← append_assoc, take_append_drop]
  have hcopy := Reads.copy (k.secret.take k.counted) (off + 2 + 8 + 2)
    (k.secret.drop k.counted ++ rest)
  rw [length_take, Nat.min_eq_left k.counted_le, ← hsecret] at hcopy
  simp only [decode, encode, append_assoc, word16_le, Utime.decode_append, hword, hcopy, ok_bind]
  rfl

end CryptoKey

/-! ### What a key does to a value -/

section Sealing

variable {τ : Type} {read : Reader τ} {key : CryptoKey}

def plain (value : Bytes) : Bytes := [1] ++ le 8 authEncMagic.toNat ++ value

@[simp] theorem length_plain (value : Bytes) : (plain value).length = 9 + value.length := by
  simp only [plain, length_append, length_singleton, length_le]

theorem encrypt_eq (key : CryptoKey) (input : Bytes) :
    key.encrypt input [] = .ok (if key.type = cryptoNone then input else []) := by
  unfold CryptoKey.encrypt getCryptoHandler
  split_ifs <;> rfl

theorem decrypt_eq (key : CryptoKey) (input : Bytes) :
    key.decrypt input [] = .ok (if key.type = cryptoNone then input else []) := by
  unfold CryptoKey.decrypt getCryptoHandler
  split_ifs <;> rfl

/-- The block that `encodeEncrypt` appends. -/
def sealed (key : CryptoKey) (value : Bytes) : Bytes :=
  image .bufferlist (if key.type = cryptoNone then plain value else [])

theorem encodeEncrypt_eq (key : CryptoKey) (value out : Bytes) :
    encodeEncrypt value key out = .ok (out ++ sealed key value) := by
  rw [encodeEncrypt, encodeEncryptEncBl, encrypt_eq]
  rfl

theorem decodeDecryptEncBl_of_ne (hkey : key.type ≠ cryptoNone) (blEnc : Bytes) :
    decodeDecryptEncBl read key blEnc = .error .endOfBuffer := by
  rw [decodeDecryptEncBl, decrypt_eq, if_neg hkey]
  rfl

theorem decodeDecrypt_of_ne (hkey : key.type ≠ cryptoNone) (p : Cursor) :
    decodeDecrypt read key p = .error "error decoding block for decryption" := by
  unfold decodeDecrypt
  cases hblock : decode .bufferlist [] p with
  | error e => rfl
  | ok q =>
    rw [ok_bind]
    dsimp only
    rw [decodeDecryptEncBl_of_ne hkey]
    rfl

theorem decodeDecryptEncBl_plain (hkey : key.type = cryptoNone) (value : Bytes) :
    decodeDecryptEncBl read key (plain value) = (read ⟨9, value⟩).map fun q => .ok q.1 := by
  rw [decodeDecryptEncBl, decrypt_eq, if_pos hkey]
  have hplain : plain value = 1 :: (le 8 authEncMagic.toNat ++ value) := rfl
  dsimp only
  rw [hplain, word8_cons, ok_bind]
  rw [word64_le, ok_bind]
  rw [if_neg (not_not.mpr rfl)]
  cases read ⟨0 + 1 + 8, value⟩ <;> rfl

theorem decodeDecryptEncBl_nil (key : CryptoKey) :
    decodeDecryptEncBl read key [] = .error .endOfBuffer := by
  rw [decodeDecryptEncBl, decrypt_eq, ite_self]
  rfl

theorem decodeDecrypt_block {blEnc} (hlen : blEnc.length < 2 ^ 32) (off : ℕ) (rest : Bytes) :
    decodeDecrypt read key ⟨off, image .bufferlist blEnc ++ rest⟩
      = match decodeDecryptEncBl read key blEnc with
        | .error _ => .error "error decoding block for decryption"
        | .ok (.error e) => .error e
        | .ok (.ok t) => .ok (t, ⟨off + (image .bufferlist blEnc).length, rest⟩) := by
  rw [decodeDecrypt, decode_bufferlist off rest hlen, ok_bind]
  dsimp only
  cases decodeDecryptEncBl read key blEnc with
  | error e => rfl
  | ok r => cases r <;> rfl

variable {key' : CryptoKey} {value : Bytes}

theorem decodeDecrypt_sealed (hlen : (sealed key value).length < 2 ^ 32) (off : ℕ) (rest : Bytes)
    {r} : decodeDecrypt read key' ⟨off, sealed key value ++ rest⟩ = .ok r
      ↔ key.type = cryptoNone ∧ key'.type = cryptoNone ∧ (∃ q, read ⟨9, value⟩ = .ok (r.1, q))
        ∧ r.2 = ⟨off + (sealed key value).length, rest⟩ := by
  by_cases hkey' : key'.type = cryptoNone
  · unfold sealed at hlen ⊢
    by_cases hkey : key.type = cryptoNone
    · rw [if_pos hkey] at hlen ⊢
      have hplain : (plain value).length < 2 ^ 32 := by
        rw [image, length_append] at hlen
        omega
      rw [decodeDecrypt_block hplain, decodeDecryptEncBl_plain hkey']
      cases hread : read ⟨9, value⟩ with
      | error e => simp [Except.map]
      | ok q =>
        obtain ⟨t, q⟩ := q
        obtain ⟨u, p⟩ := r
        simp only [Except.map, Except.ok.injEq, Prod.mk.injEq, hkey, hkey', true_and]
        constructor
        · rintro ⟨rfl, rfl⟩
          exact ⟨⟨q, rfl, rfl⟩, rfl⟩
        · rintro ⟨⟨_, rfl, -⟩, rfl⟩
          exact ⟨rfl, rfl⟩
    · rw [if_neg hkey, decodeDecrypt_block (by decide), decodeDecryptEncBl_nil]
      exact iff_of_false (by simp) (fun h => hkey h.1)
  · rw [decodeDecrypt_of_ne hkey']
    exact iff_of_false (by simp) (fun h => hkey' h.2.1)

theorem decodeDecrypt_open {t} {q} (hkey : key.type = cryptoNone)
    (hkey' : key'.type = cryptoNone) (hread : read ⟨9, value⟩ = .ok (t, q))
    (hlen : (sealed key value).length < 2 ^ 32) (off : ℕ) (rest : Bytes) :
    decodeDecrypt read key' ⟨off, sealed key value ++ rest⟩
      = .ok (t, ⟨off + (sealed key value).length, rest⟩) :=
  (decodeDecrypt_sealed hlen off rest).mpr ⟨hkey, hkey', ⟨q, hread⟩, rfl⟩

end Sealing

end Auth

end CephDokan
