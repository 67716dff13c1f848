import CephDokan.Lib.Tiling
import CephDokan.Osdc.Striper

/-!
# Reassembly of striped reads

`StripedReadResult` collects the replies of the objects of a read, keyed by position in
the caller's buffer, and puts them together from the back. A reply is dense, or sparse
with a map of the object ranges its bytes belong to.
-/

namespace CephDokan

namespace Striper

/-- The pieces received so far: position in the buffer, data, intended length. -/
structure StripedReadResult where
  partials : SortedMap ℕ (Bytes × ℕ) := ∅

namespace StripedReadResult

variable (r : StripedReadResult)

/-- The piece at `pos`, a new and empty one if there is none yet. -/
def pieceAt (pos : ℕ) : Bytes × ℕ := (r.partials.find? pos).getD ([], 0)

/-- Append `data` to the piece at `pos` and set its intended length. -/
def putPiece (pos : ℕ) (data : Bytes) (len : ℕ) : StripedReadResult :=
  { partials := r.partials.insert pos ((r.pieceAt pos).1 ++ data, len) }

/-- The result and what is left of the reply. -/
def addPartialResult (r : StripedReadResult) (bl : Bytes) :
    List (ℕ × ℕ) → Run (StripedReadResult × Bytes)
  | [] => .ok (r, bl)
  | p :: bufferExtents => do
    let actual := min bl.length p.2
    let (bl, claimed) ← bl.splice 0 (u32 actual)
    addPartialResult (r.putPiece p.1 claimed p.2) bl bufferExtents

/-- Where `add_partial_sparse_result` stands: `s` is the rest of the map, `blOff` the object
offset reached, `[tofs, tofs + tlen)` the rest of the current buffer extent. -/
structure SparseCursor where
  result : StripedReadResult
  bl : Bytes
  s : List (ℕ × ℕ)
  blOff : ℕ
  tofs : ℕ
  tlen : ℕ

namespace SparseCursor

/-- A gap before the next range of the map becomes a piece without data. -/
def skipGap (c : SparseCursor) (first : ℕ) : SparseCursor :=
  if first > c.blOff then
    let gap := min (first - c.blOff) c.tlen
    { c with
      result := c.result.putPiece c.tofs [] gap
      blOff := c.blOff + gap
      tofs := c.tofs + gap
      tlen := c.tlen - gap }
  else c

/-- Copy what the range `first~second` of the map has for the current buffer extent. -/
def copyRun (c : SparseCursor) (first second : ℕ) : Run SparseCursor := do
  assertThat (first ≤ c.blOff)
  let left := sub64 (u64 (first + second)) c.blOff
  let actual := min left c.tlen
  let c' ← if actual > 0 then do
      let (bl, claimed) ← c.bl.splice 0 (u32 actual)
      pure { c with
        result := c.result.putPiece c.tofs claimed actual
        bl := bl
        blOff := c.blOff + actual
        tofs := c.tofs + actual
        tlen := c.tlen - actual }
    else pure c
  return if actual = left then { c' with s := c'.s.tail } else c'

def fill : ℕ → SparseCursor → Run SparseCursor
  | 0, c => if c.tlen = 0 then .ok c else .error .diverged
  | fuel + 1, c =>
    if c.tlen = 0 then .ok c
    else
      match c.s with
      | [] => .ok { c with result := c.result.putPiece c.tofs [] c.tlen, tlen := 0 }
      | (first, second) :: s =>
        if second = 0 then fill fuel { c with s := s }
        else
          let c := c.skipGap first
          if c.tlen = 0 then fill fuel c
          else do
            let c ← c.copyRun first second
            fill fuel c

end SparseCursor

/-- The loop of `add_partial_sparse_result` over the buffer extents. -/
def addSparseLoop (r : StripedReadResult) (bl : Bytes) (s : List (ℕ × ℕ)) (blOff : ℕ) :
    List (ℕ × ℕ) → Run (StripedReadResult × Bytes)
  | [] => .ok (r, bl)
  | p :: bufferExtents => do
    let c ← SparseCursor.fill (p.2 + s.length) ⟨r, bl, s, blOff, p.1, p.2⟩
    addSparseLoop c.result c.bl c.s c.blOff bufferExtents

def addPartialSparseResult (bl : Bytes) (blMap : SortedMap ℕ ℕ) (blOff : ℕ)
    (bufferExtents : List (ℕ × ℕ)) : Run (StripedReadResult × Bytes) :=
  addSparseLoop r bl blMap.entries blOff bufferExtents

/-- The loop of `assemble_result` over the pieces from the last to the first; `stop` is
where the piece before must end. -/
def assembleLoop (zeroTail : Bool) : List (ℕ × Bytes × ℕ) → ℕ → Bytes → Run Bytes
  | [], _, bl => .ok bl
  | (pos, data, intended) :: rest, stop, bl => do
    assertThat (pos = sub64 stop intended)
    let len := data.length
    let bl :=
      if len < intended then
        if zeroTail = true ∨ bl.length ≠ 0 then
          data ++ (Bytes.zero (u32 (intended - len)) ++ bl)
        else data ++ bl
      else data ++ bl
    assembleLoop zeroTail rest pos bl

/-- The cleared result and the assembled bytes in front of `bl`. -/
def assembleResult (bl : Bytes) (zeroTail : Bool) :
    Run (StripedReadResult × Bytes) :=
  match r.partials.entries.reverse with
  | [] => .ok (r, bl)
  | (pos, data, intended) :: rest => do
    let bl ← assembleLoop zeroTail ((pos, data, intended) :: rest) (u64 (pos + intended)) bl
    return ({}, bl)

end StripedReadResult

inductive Reply
  | dense (bl : Bytes)
  | sparse (bl : Bytes) (blMap : SortedMap ℕ ℕ)

/-- Add the reply for `ex`, a sparse one from the start of the extent. -/
def addReply (r : StripedReadResult) (ex : ObjectExtent) : Reply → Run StripedReadResult
  | .dense bl => do
    let (r, _) ← r.addPartialResult bl ex.bufferExtents
    return r
  | .sparse bl blMap => do
    let (r, _) ← r.addPartialSparseResult bl blMap ex.offset ex.bufferExtents
    return r

def addReplies (r : StripedReadResult) : List (ObjectExtent × Reply) → Run StripedReadResult
  | [] => .ok r
  | (ex, reply) :: rest => do
    let r ← addReply r ex reply
    addReplies r rest

/-- All replies added in the given order, then assembled into an empty buffer. -/
def readResult (replies : List (ObjectExtent × Reply)) (zeroTail : Bool) : Run Bytes := do
  let r ← addReplies {} replies
  let (_, bl) ← r.assembleResult [] zeroTail
  return bl

end Striper

/-- The end of `Objecter::_sg_read_finish`: the bytes of the read and their number. -/
def sgReadFinish (extents : List ObjectExtent) (resultbl : List Bytes) : Run (Bytes × ℕ) := do
  let bl ←
    if extents.length > 1 then
      Striper.readResult (extents.zip (resultbl.map .dense)) false
    else
      match resultbl with
      | [] => .error .dangling
      | bl :: _ => pure bl
  return (bl, bl.length)

end CephDokan
