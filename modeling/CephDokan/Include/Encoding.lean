import CephDokan.Common.Buffer
import CephDokan.Lib.SortedMap
import CephDokan.Lib.Wire

/-!
# Encoding and decoding

`Coding α` is a C++ type the overloads of `encode` and `decode` accept, with its values in `α`.
Encoding appends to a `bufferlist`; decoding reads at an iterator and writes into an object
that exists already, so `decode` takes the old value and returns the new one. What is left in
the object is `overlay`, and it is the encoded value only where `Resets` holds: an absent
optional leaves its target alone, and a vector decodes into the elements it already has.
-/

namespace CephDokan.Encoding

open Wire List

/-- `std::multimap`: entries in key order, equal keys in order of insertion. -/
structure Multimap (κ α : Type) [LinearOrder κ] where
  entries : List (κ × α)
  sorted : entries.Pairwise (fun x y => x.1 ≤ y.1)

namespace Multimap

variable {κ α : Type} [LinearOrder κ]

@[ext] theorem ext {m m' : Multimap κ α} (h : m.entries = m'.entries) : m = m' := by
  cases m
  cases m'
  cases h
  rfl

def empty : Multimap κ α := ⟨[], List.Pairwise.nil⟩

/-- An entry goes behind those with the same key. -/
def insertEntry (k : κ) (v : α) : List (κ × α) → List (κ × α)
  | [] => [(k, v)]
  | e :: es => if k < e.1 then (k, v) :: e :: es else e :: insertEntry k v es

variable {es : List (κ × α)} {k : κ}

theorem mem_insertEntry {v : α} {e} (h : e ∈ insertEntry k v es) : e = (k, v) ∨ e ∈ es := by
  induction es with
  | nil => exact .inl (mem_singleton.mp h)
  | cons x xs ih =>
    rw [insertEntry] at h
    split_ifs at h
    · exact mem_cons.mp h
    · rcases mem_cons.mp h with rfl | h
      · exact .inr mem_cons_self
      · exact (ih h).imp_right (mem_cons_of_mem _)

theorem insertEntry_sorted (k : κ) (v : α) (h : es.Pairwise (fun x y => x.1 ≤ y.1)) :
    (insertEntry k v es).Pairwise (fun x y => x.1 ≤ y.1) := by
  induction es with
  | nil => exact pairwise_singleton _ _
  | cons x xs ih =>
    rw [pairwise_cons] at h
    rw [insertEntry]
    split_ifs with hlt
    · apply pairwise_cons.mpr ⟨_, pairwise_cons.mpr h⟩
      intro y hy
      rcases mem_cons.mp hy with rfl | hy
      · exact hlt.le
      · exact hlt.le.trans (h.1 y hy)
    · apply pairwise_cons.mpr ⟨_, ih h.2⟩
      intro y hy
      rcases mem_insertEntry hy with rfl | hy
      · exact not_lt.mp hlt
      · exact h.1 y hy

def insert (m : Multimap κ α) (k : κ) (v : α) : Multimap κ α :=
  ⟨insertEntry k v m.entries, insertEntry_sorted k v m.sorted⟩

theorem insertEntry_last (h : ∀ e ∈ es, e.1 ≤ k) (v : α) : insertEntry k v es = es ++ [(k, v)] := by
  induction es with
  | nil => rfl
  | cons x xs ih =>
    rw [insertEntry, if_neg (not_lt.mpr (h x mem_cons_self)),
      ih (fun e he => h e (mem_cons_of_mem _ he)), cons_append]

end Multimap

/-- The types that can be encoded. An integer of `w` bytes is the number its bytes hold, which
for a signed type is its two's complement; a framed struct has its fields as one value. -/
inductive Coding : Type → Type 1
  | int (w : ℕ) (hw : 0 < w) : Coding (Fin (256 ^ w))
  | string : Coding Bytes
  | bufferlist : Coding Bytes
  | pair {α β : Type} (a : Coding α) (b : Coding β) : Coding (α × β)
  | optional {α : Type} (c : Coding α) : Coding (Option α)
  | list {α : Type} (c : Coding α) : Coding (List α)
  | vector {α : Type} (c : Coding α) : Coding (List α)
  | deque {α : Type} (c : Coding α) : Coding (List α)
  | set {α : Type} [LinearOrder α] (c : Coding α) : Coding (Finset α)
  | map {κ α : Type} [LinearOrder κ] (k : Coding κ) (c : Coding α) : Coding (SortedMap κ α)
  | multimap {κ α : Type} [LinearOrder κ] (k : Coding κ) (c : Coding α) : Coding (Multimap κ α)
  | struct {α : Type} (v compat : UInt8) (h : compat ≤ v) (c : Coding α) : Coding α

/-! ### Encoding -/

/-- Overwrite the bytes at `off`. -/
def copyIn (bl : Bytes) (off : ℕ) (src : Bytes) : Bytes :=
  bl.take off ++ src ++ bl.drop (off + src.length)

/-- `ENCODE_START(v, compat, bl)`, the body, `ENCODE_FINISH_NEW_COMPAT(bl, newStructCompat)`. -/
def encodeFrame (v compat newStructCompat : UInt8) (body : Bytes → Bytes) (bl : Bytes) : Bytes :=
  let bl := bl ++ [v] ++ [compat]
  let structCompatIt := bl.length - 1
  let bl := bl ++ le 4 0
  let structLenIt := bl.length - 4
  let bl := body bl
  let bl := copyIn bl structLenIt (le 4 (bl.length - structLenIt - 4))
  if newStructCompat ≠ 0 then copyIn bl structCompatIt [newStructCompat] else bl

def encode : {α : Type} → Coding α → α → Bytes → Bytes
  | _, .int w _, x, bl => bl ++ le w x.val
  | _, .string, s, bl => bl ++ le 4 s.length ++ s.take (u32 s.length)
  | _, .bufferlist, s, bl => bl ++ le 4 s.length ++ s
  | _, .pair a b, x, bl => encode b x.2 (encode a x.1 bl)
  | _, .optional _, none, bl => bl ++ le 1 0
  | _, .optional c, some x, bl => encode c x (bl ++ le 1 1)
  | _, .list c, ls, bl =>
    -- the count of a list is written last, into the place kept for it
    if ls ≠ [] then
      copyIn (ls.foldl (fun bl x => encode c x bl) (bl ++ le 4 0)) bl.length (le 4 ls.length)
    else bl ++ le 4 ls.length
  | _, .vector c, xs, bl => xs.foldl (fun bl x => encode c x bl) (bl ++ le 4 xs.length)
  | _, .deque c, xs, bl => xs.foldl (fun bl x => encode c x bl) (bl ++ le 4 xs.length)
  | _, @Coding.set _ _ c, s, bl => s.sort.foldl (fun bl x => encode c x bl) (bl ++ le 4 s.card)
  | _, @Coding.map _ _ _ k c, m, bl =>
    m.entries.foldl (fun bl e => encode c e.2 (encode k e.1 bl)) (bl ++ le 4 m.entries.length)
  | _, @Coding.multimap _ _ _ k c, m, bl =>
    m.entries.foldl (fun bl e => encode c e.2 (encode k e.1 bl)) (bl ++ le 4 m.entries.length)
  | _, .struct v compat _ c, x, bl => encodeFrame v compat 0 (encode c x) bl

/-! ### Decoding -/

def iterator (bl : Bytes) (off : ℕ) : Cursor := ⟨off, bl.drop off⟩

/-- An integer of `w` bytes. -/
def word (w : ℕ) : Reader ℕ := fun p => do
  let (bs, p) ← copy w p
  return (leVal bs, p)

def advance (n : ℕ) : Reader Unit := fun p => do
  let (_, p) ← copy n p
  return ((), p)

/-- `DECODE_START(v, bl)`, the body, `DECODE_FINISH(bl)`. The end of the struct lies within the
buffer, so its offset does not wrap. -/
def decodeFrame {α : Type} (v : ℕ) (body : ℕ → Reader α) : Reader α := fun p => do
  let (structV, p) ← word 1 p
  let (structCompat, p) ← word 1 p
  if v < structCompat then .error .malformed else
  let (structLen, p) ← word 4 p
  if structLen > p.rest.length then .error .malformed else
  let structEnd := p.off + structLen
  let (a, p) ← body structV p
  if structEnd ≠ 0 then
    if p.off > structEnd then .error .malformed
    else if p.off < structEnd then
      let (_, p) ← advance (structEnd - p.off) p
      return (a, p)
    else return (a, p)
  else return (a, p)

/-- `v.resize(n)`: elements are cut off or value-initialised at the end. -/
def resize {α : Type} (d : α) (n : ℕ) (xs : List α) : List α :=
  xs.take n ++ List.replicate (n - xs.length) d

def fresh : {α : Type} → Coding α → α
  | _, .int w _ => ⟨0, by positivity⟩
  | _, .string => []
  | _, .bufferlist => []
  | _, .pair a b => (fresh a, fresh b)
  | _, .optional _ => none
  | _, .list _ => []
  | _, .vector _ => []
  | _, .deque _ => []
  | _, @Coding.set _ _ _ => ∅
  | _, @Coding.map _ _ _ _ _ => ∅
  | _, @Coding.multimap _ _ _ _ _ => .empty
  | _, .struct _ _ _ c => fresh c

def decode : {α : Type} → Coding α → α → Reader α
  | _, .int w _, _, p => do
    let (n, p) ← word w p
    return (⟨n % 256 ^ w, Nat.mod_lt _ (by positivity)⟩, p)
  | _, .string, _, p => do
    let (len, p) ← word 4 p
    copy len p
  | _, .bufferlist, _, p => do
    let (len, p) ← word 4 p
    copy len p
  | _, .pair a b, t, p => do
    let (x, p) ← decode a t.1 p
    let (y, p) ← decode b t.2 p
    return ((x, y), p)
  | _, .optional c, t, p => do
    let (present, p) ← word 1 p
    if present ≠ 0 then
      let (x, p) ← decode c (fresh c) p
      return (some x, p)
    else return (t, p)
  | _, .list c, _, p => do
    let (n, p) ← word 4 p
    loop (fun ls p => do
      let (v, p) ← decode c (fresh c) p
      return (ls ++ [v], p)) n [] p
  | _, .vector c, t, p => do
    let (n, p) ← word 4 p
    each (decode c) (resize (fresh c) n t) p
  | _, .deque c, _, p => do
    let (n, p) ← word 4 p
    loop (fun ls p => do
      let (v, p) ← decode c (fresh c) p
      return (ls ++ [v], p)) n [] p
  | _, @Coding.set _ _ c, _, p => do
    let (n, p) ← word 4 p
    loop (fun s p => do
      let (v, p) ← decode c (fresh c) p
      return (Insert.insert v s, p)) n ∅ p
  | _, @Coding.map _ _ _ k c, _, p => do
    let (n, p) ← word 4 p
    loop (fun m p => do
      let (key, p) ← decode k (fresh k) p
      -- `m[k]` makes an entry where there is none
      let (v, p) ← decode c ((m.find? key).getD (fresh c)) p
      return (m.insert key v, p)) n ∅ p
  | _, @Coding.multimap _ _ _ k c, _, p => do
    let (n, p) ← word 4 p
    loop (fun m p => do
      let (key, p) ← decode k (fresh k) p
      -- the entry is inserted first and its value decoded in place
      let (v, p) ← decode c (fresh c) p
      return (m.insert key v, p)) n .empty p
  | _, .struct v _ _ c, t, p => decodeFrame v.toNat (fun _ => decode c t) p

/-! ### The bytes of a value -/

def frameImage (v compat : UInt8) (body : Bytes) : Bytes :=
  [v] ++ ([compat] ++ (le 4 body.length ++ body))

def image : {α : Type} → Coding α → α → Bytes
  | _, .int w _, x => le w x.val
  | _, .string, s => le 4 s.length ++ s.take (u32 s.length)
  | _, .bufferlist, s => le 4 s.length ++ s
  | _, .pair a b, x => image a x.1 ++ image b x.2
  | _, .optional _, none => le 1 0
  | _, .optional c, some x => le 1 1 ++ image c x
  | _, .list c, xs => le 4 xs.length ++ xs.flatMap (image c)
  | _, .vector c, xs => le 4 xs.length ++ xs.flatMap (image c)
  | _, .deque c, xs => le 4 xs.length ++ xs.flatMap (image c)
  | _, @Coding.set _ _ c, s => le 4 s.card ++ s.sort.flatMap (image c)
  | _, @Coding.map _ _ _ k c, m =>
    le 4 m.entries.length ++ m.entries.flatMap fun e => image k e.1 ++ image c e.2
  | _, @Coding.multimap _ _ _ k c, m =>
    le 4 m.entries.length ++ m.entries.flatMap fun e => image k e.1 ++ image c e.2
  | _, .struct v compat _ c, x => frameImage v compat (image c x)

end CephDokan.Encoding
