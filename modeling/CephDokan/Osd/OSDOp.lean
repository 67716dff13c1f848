import CephDokan.Include.RoundTrip

/-!
# The payloads of a vector of ops

The buffers of all ops of a message travel in one data buffer. Merging writes the length of a
buffer into `payload_len` and skips empty buffers; splitting takes as many bytes as `payload_len`
says. A length that an op with an empty buffer had before is not cleared.
-/

namespace CephDokan.Osd

open Encoding Wire List

/-- `sobject_t`: a name and a snapshot. -/
abbrev SObject := Bytes × Fin (256 ^ 8)

def sobject : Coding SObject := .pair .string (.int 8 (Nat.succ_pos 7))

/-- What merging and splitting read of an `OSDOp`. -/
structure OSDOp where
  op : ℕ
  payloadLen : ℕ
  soid : SObject
  indata : Bytes
  outdata : Bytes

/-- The buffers of an op; the object id of a multi-object op goes before its input. -/
inductive Side
  | input
  | output
  deriving DecidableEq

namespace OSDOp

def typeMulti (op : ℕ) : Bool := op &&& 0x0f00 = 0x0600

def data : Side → OSDOp → Bytes
  | .input => indata
  | .output => outdata

variable (k : Side)

def merge : List OSDOp → Bytes → List OSDOp × Bytes
  | [], out => ([], out)
  | op :: ops, out =>
    let out := if k = .input ∧ typeMulti op.op then encode sobject op.soid out else out
    if (op.data k).length ≠ 0 then
      let (ops, out) := merge ops (out ++ op.data k)
      ({ op with payloadLen := (op.data k).length } :: ops, out)
    else
      let (ops, out) := merge ops out
      (op :: ops, out)

/-- What an op gets that has an empty buffer, and its `payload_len` from the message. -/
def splitData (soid : SObject) (payloadLen : ℕ) : Reader (SObject × Bytes) := fun p => do
  if payloadLen ≠ 0 then
    let (bl, p) ← copy payloadLen p
    return ((soid, bl), p)
  else return ((soid, []), p)

def splitOne (op payloadLen : ℕ) : Reader (SObject × Bytes) := fun p => do
  if k = .input ∧ typeMulti op then
    let (soid, p) ← decode sobject (fresh sobject) p
    splitData soid payloadLen p
  else splitData (fresh sobject) payloadLen p

def split : List OSDOp → Reader (List (SObject × Bytes))
  | [], p => .ok ([], p)
  | op :: ops, p => do
    let (got, p) ← splitOne k op.op op.payloadLen p
    let (gots, p) ← split ops p
    return (got :: gots, p)

def mergeOsdOpVectorInData := merge .input
def splitOsdOpVectorInData := split .input
def mergeOsdOpVectorOutData := merge .output
def splitOsdOpVectorOutData := split .output

/-! ### One op -/

def Gets (op : OSDOp) (got : SObject × Bytes) : Prop :=
  got.2 = op.data k ∧ (k = .input ∧ typeMulti op.op → got.1 = op.soid)

def merged (op : OSDOp) : OSDOp :=
  if (op.data k).length ≠ 0 then { op with payloadLen := (op.data k).length } else op

def sent (op : OSDOp) : Bytes :=
  (if k = .input ∧ typeMulti op.op then image sobject op.soid else []) ++ op.data k

theorem splitData_reads (soid : SObject) (bl : Bytes) :
    Reads (splitData soid bl.length) bl (soid, bl) := by
  unfold splitData
  by_cases hbl : bl = []
  · simpa [hbl] using Reads.pure (soid, ([] : Bytes))
  · simpa [hbl] using (Reads.copy bl).map (soid, ·)

theorem splitOne_reads {op} (hname : op.soid.1.length < 2 ^ 32) :
    ∃ got, Gets k op got ∧ Reads (splitOne k op.op (op.data k).length) (sent k op) got := by
  unfold splitOne sent
  by_cases hid : k = .input ∧ typeMulti op.op
  · have hsoid := decode_reads sobject op.soid (fresh sobject) ⟨hname, trivial⟩
    simp only [if_pos hid]
    exact ⟨_, ⟨rfl, fun _ => rfl⟩,
      hsoid.bind (k := fun s => splitData s (op.data k).length) (splitData_reads op.soid _)⟩
  · simp only [if_neg hid]
    exact ⟨_, ⟨rfl, fun h => absurd h hid⟩, splitData_reads (fresh sobject) _⟩

variable {p q : Cursor} {got : SObject × Bytes}

theorem splitData_length {soid} {len : ℕ} (h : splitData soid len p = .ok (got, q)) :
    got.2.length = len := by
  unfold splitData copy at h
  split_ifs at h with hlen hshort <;> cases h
  · rw [length_take]
    omega
  · exact (not_not.mp hlen).symm

theorem splitOne_length {op len : ℕ} (h : splitOne k op len p = .ok (got, q)) :
    got.2.length = len := by
  unfold splitOne at h
  split_ifs at h
  · obtain ⟨⟨soid, r⟩, -, hdata⟩ := Fallible.bind_eq_ok.mp h
    exact splitData_length hdata
  · exact splitData_length h

/-! ### The vector -/

theorem merge_eq (ops : List OSDOp) (out : Bytes) :
    merge k ops out = (ops.map (merged k), out ++ ops.flatMap (sent k)) := by
  induction ops generalizing out with
  | nil => simp [merge]
  | cons op ops ih =>
    rw [merge]
    split_ifs with hid hlen hlen <;> simp_all [merged, sent, encode_eq]

theorem op_merged (op : OSDOp) : (merged k op).op = op.op := by
  unfold merged
  split_ifs <;> rfl

theorem payloadLen_merged (op : OSDOp) : (merged k op).payloadLen
    = if op.data k = [] then op.payloadLen else (op.data k).length := by
  unfold merged
  split_ifs <;> simp_all

variable {ops : List OSDOp}

theorem split_reads (hname : ∀ op ∈ ops, op.soid.1.length < 2 ^ 32)
    (hlen : ∀ op ∈ ops, op.data k = [] → op.payloadLen = 0) : ∃ got, Forall₂ (Gets k) ops got
      ∧ Reads (split k (ops.map (merged k))) (ops.flatMap (sent k)) got := by
  induction ops with
  | nil => exact ⟨[], .nil, Reads.pure []⟩
  | cons op ops ih =>
    obtain ⟨hop, hops⟩ := forall_mem_cons.mp hlen
    obtain ⟨hid, hids⟩ := forall_mem_cons.mp hname
    obtain ⟨got, hgets, hread⟩ := splitOne_reads k hid
    obtain ⟨gots, hall, hreads⟩ := ih hids hops
    have hpay : (merged k op).payloadLen = (op.data k).length := by
      rw [payloadLen_merged]
      split_ifs with hdata
      · rw [hop hdata, hdata, length_nil]
      · rfl
    rw [← op_merged k op, ← hpay] at hread
    exact ⟨got :: gots, .cons hgets hall,
      hread.bind (k := fun a p => split k (ops.map (merged k)) p >>= fun q => .ok (a :: q.1, q.2))
        (hreads.map (got :: ·))⟩

theorem payloadLen_of_split {got}
    (h : split k (ops.map (merged k)) p = .ok (got, q)) (hgets : Forall₂ (Gets k) ops got) :
    ∀ op ∈ ops, op.data k = [] → op.payloadLen = 0 := by
  induction hgets generalizing p q with
  | nil => simp
  | @cons op g ops gs hop _ ih =>
    obtain ⟨⟨g', r⟩, hone, hrest⟩ := Fallible.bind_eq_ok.mp h
    obtain ⟨⟨gs', r'⟩, hothers, heq⟩ := Fallible.bind_eq_ok.mp hrest
    cases heq
    refine forall_mem_cons.mpr ⟨fun hdata => ?_, ih hothers⟩
    have hlen := splitOne_length k hone
    rwa [hop.1, hdata, payloadLen_merged, if_pos hdata, eq_comm] at hlen

/-- The receiver gets back from the merged data what the sender had. -/
def Survives (merge : List OSDOp → Bytes → List OSDOp × Bytes)
    (split : List OSDOp → Reader (List (SObject × Bytes))) (ops : List OSDOp) : Prop :=
  ∃ got p, split (merge ops []).1 ⟨0, (merge ops []).2⟩ = .ok (got, p) ∧ Forall₂ (Gets k) ops got

theorem survives_iff (hname : ∀ op ∈ ops, op.soid.1.length < 2 ^ 32) :
    Survives k (merge k) (split k) ops ↔ ∀ op ∈ ops, op.data k = [] → op.payloadLen = 0 := by
  unfold Survives
  rw [merge_eq, nil_append]
  constructor
  · rintro ⟨got, p, hsplit, hgets⟩
    exact payloadLen_of_split k hsplit hgets
  · intro hlen
    obtain ⟨got, hgets, hread⟩ := split_reads k hname hlen
    have hall := hread 0 []
    rw [append_nil] at hall
    exact ⟨got, _, hall, hgets⟩

/-- Merging and splitting lose nothing exactly when no op without data has an old length. -/
theorem merge_split_iff {ops : List OSDOp} (hname : ∀ op ∈ ops, op.soid.1.length < 2 ^ 32) :
    (Survives .input mergeOsdOpVectorInData splitOsdOpVectorInData ops
      ↔ ∀ op ∈ ops, op.indata = [] → op.payloadLen = 0)
    ∧ (Survives .output mergeOsdOpVectorOutData splitOsdOpVectorOutData ops
      ↔ ∀ op ∈ ops, op.outdata = [] → op.payloadLen = 0) :=
  ⟨survives_iff .input hname, survives_iff .output hname⟩

theorem merge_split_copy :
    Survives .input mergeOsdOpVectorInData splitOsdOpVectorInData
      [⟨0x2601, 0, ([65], 3), [7], []⟩, ⟨0x2201, 5, ([], 0), [8, 9], []⟩] := by
  apply (merge_split_iff (by decide)).1.mpr
  decide

/-- A read that was sent before with a byte of payload takes the first byte of the write. -/
theorem merge_split_stale :
    ¬ Survives .input mergeOsdOpVectorInData splitOsdOpVectorInData
      [⟨0x1201, 1, ([], 0), [], []⟩, ⟨0x2201, 0, ([], 0), [7, 8], []⟩] := by
  rintro ⟨got, p, hsplit, -⟩
  cases hsplit

end OSDOp

end CephDokan.Osd
