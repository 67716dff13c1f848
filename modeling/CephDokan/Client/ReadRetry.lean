import CephDokan.Client.Read

/-!
# What a read returns

A pass that finds the file grown behind a short read goes round again and appends to what it
has. The object cacher and the inline read do not append: they replace the contents of the
buffer, and the part that earlier passes have read is lost.
-/

namespace CephDokan.Client

open Fallible FileBytes List Except

/-! ### Rounds that read one file -/

/-- The bytes of the reply are those of the file, and what a short reply leaves out of the
request holds zeros, as far as the file is known to reach. -/
structure Reply.Reads (reply : Reply) (content : ℕ → UInt8) (pos left : ℕ) : Prop where
  eq : ∀ tbl, reply.bytes = .ok tbl → tbl = slice content pos tbl.length
  length_le : ∀ tbl, reply.bytes = .ok tbl → tbl.length ≤ left
  short : ∀ tbl, reply.bytes = .ok tbl → ∀ i, pos + tbl.length ≤ i → i < pos + left →
    i < reply.size → content i = 0

/-- The answers of a pass come from a file with these contents. -/
structure Round.Reads (rd : Round) (content : ℕ → UInt8) : Prop where
  fits : ∀ data, rd.inlined = some data → data.length ≤ rd.size ∧ data.length < 2 ^ 32
  inlined : ∀ data, rd.inlined = some data → ∀ i < rd.size, data.getD i 0 = content i
  fileRead : ∀ off len bytes, off + len ≤ rd.size → rd.fileRead off len = .ok bytes →
    bytes = slice content off len
  osd : ∀ pos left, (rd.osd pos left).Reads content pos left

inductive Passes (useCache : Bool) (env : ℕ → Round) (p0 : Pass) : Pass → Prop
  | first : Passes useCache env p0 p0
  | retry {p q : Pass} (h : Passes useCache env p0 p)
      (hround : readRound useCache (env p.n) p = .ok (.retry q)) : Passes useCache env p0 q

section Reads

variable {content : ℕ → UInt8} {rd : Round} {off len : ℕ}

theorem fillTail_eq {tbl : Bytes} {left size} (htbl : tbl = slice content off tbl.length)
    (hzero : ∀ i, off + tbl.length ≤ i → i < off + left → i < size → content i = 0) :
    (fillTail off left size tbl).1 = slice content off (fillTail off left size tbl).1.length := by
  unfold fillTail
  dsimp only
  split_ifs with hpos
  · have hfill : Bytes.zero (min (size - (off + tbl.length)) (left - tbl.length)) =
        slice content (off + tbl.length) (min (size - (off + tbl.length)) (left - tbl.length)) := by
      rw [slice_of_const (z := 0)]
      · rfl
      · intro i hi hi'
        exact hzero i hi (by omega) (by omega)
    rw [hfill]
    nth_rewrite 1 [htbl]
    rw [slice_append, length_append, length_slice]
  · exact htbl

theorem fillTail_length (off : ℕ) {left} (size : ℕ) {tbl} (hlen : tbl.length < left) :
    (fillTail off left size tbl).1.length = max tbl.length (min (size - off) left) ∧
      (fillTail off left size tbl).2 = decide ((fillTail off left size tbl).1.length < left) := by
  unfold fillTail
  dsimp only
  split_ifs with hpos
  · simp only [length_append, Bytes.zero, length_replicate, decide_eq_decide]
    omega
  · simp only [decide_eq_true hlen, and_true]
    omega

variable {bl : Bytes} {q : Pass} {e : ReadEnd}

/-- The pass has read the part of the file before its offset. -/
structure Pass.Continues (content : ℕ → UInt8) (off size : ℕ) (p : Pass) : Prop where
  bl : p.bl = slice content off p.bl.length
  offset : p.offset = off + p.bl.length
  size : p.size + p.bl.length = size

variable {size : ℕ} {p : Pass}

theorem Pass.Continues.append (hp : p.Continues content off size) {piece : Bytes}
    (hpiece : piece = slice content p.offset piece.length) :
    p.bl ++ piece = slice content off (p.bl ++ piece).length := by
  nth_rewrite 1 [hp.bl, hpiece]
  rw [hp.offset, slice_append, length_append]

variable {res : Except ℤ (Bytes × Bool × ℕ)}

section

variable (h : rd.Reads content) (hp : p.Continues content off size)

include h hp

end

section

variable {useCache : Bool}

end

end Reads

/-! ### The loop -/

section Loop

variable {useCache : Bool} {env : ℕ → Round}

end Loop

end CephDokan.Client
