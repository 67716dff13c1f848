import CephDokan.Lib.SortedMap
import CephDokan.Common.Buffer
import Mathlib.Data.String.Basic

/-!
# The striper: file ranges, object extents and back

The layout record, its validity test and the three loops of `Striper`. Sizes in the
layout are 32-bit, everything computed from them is 64-bit; a sum or product that can
leave the 64-bit range is reduced with `u64`.
-/

namespace CephDokan

theorem one_lt_word : 1 < 2 ^ 32 := by decide

/-- The fields of `ceph_file_layout` that the mapping reads. -/
structure FileLayout where
  stripeUnit : ℕ
  stripeCount : ℕ
  objectSize : ℕ
  pgPool : ℕ
  stripeUnit_lt : stripeUnit < 2 ^ 32 := by decide
  stripeCount_lt : stripeCount < 2 ^ 32 := by decide
  objectSize_lt : objectSize < 2 ^ 32 := by decide

def cephMinStripeUnit : ℕ := 65536

def cephFileLayoutIsValid (layout : FileLayout) : Bool :=
  let su := layout.stripeUnit
  let sc := layout.stripeCount
  let os := layout.objectSize
  if su = 0 ∨ su &&& (cephMinStripeUnit - 1) ≠ 0 then false
  else if os = 0 ∨ os &&& (cephMinStripeUnit - 1) ≠ 0 then false
  else if os < su ∨ os % su ≠ 0 then false
  else if sc = 0 then false
  else true

/-- A range of one object; `bufferExtents` are the pieces of the caller's buffer
it maps to, each an offset and a length. -/
structure ObjectExtent where
  oid : String
  objectno : ℕ
  offset : ℕ
  length : ℕ
  truncateSize : ℕ
  pool : ℕ
  bufferExtents : List (ℕ × ℕ)
  deriving DecidableEq, Repr

namespace Striper

/-- The digits `printf` writes for `%llx`, without the one for zero. -/
def hexDigits (n : ℕ) : List Char := (Nat.digits 16 n).reverse.map Nat.digitChar

/-- `%llx` -/
def hex (n : ℕ) : List Char := if n = 0 then ['0'] else hexDigits n

/-- `%08llx` -/
def hex08 (n : ℕ) : List Char :=
  List.replicate (8 - (hexDigits n).length) '0' ++ hexDigits n

/-- The object names of a file: `%llx.%08llx` applied to the inode and object number. -/
def objectFormat (ino objectno : ℕ) : String := String.ofList (hex ino ++ '.' :: hex08 objectno)

variable (layout : FileLayout)

def objectTruncateSize (objectno truncSize : ℕ) : Run ℕ :=
  if truncSize = 0 ∨ truncSize = 2 ^ 64 - 1 then .ok truncSize
  else do
    let objectSize := layout.objectSize
    let su := layout.stripeUnit
    let stripeCount := layout.stripeCount
    assertThat (objectSize ≥ su)
    let stripesPerObject := objectSize / su
    let objectsetno := objectno / stripeCount
    let truncObjectsetno := truncSize / objectSize / stripeCount
    if objectsetno > truncObjectsetno then .ok 0
    else if objectsetno < truncObjectsetno then .ok objectSize
    else
      let truncBlockno := truncSize / su
      let truncStripeno := truncBlockno / stripeCount
      let truncStripepos := truncBlockno % stripeCount
      let truncObjectno := truncObjectsetno * stripeCount + truncStripepos
      if objectno < truncObjectno then .ok ((truncStripeno % stripesPerObject + 1) * su)
      else if objectno > truncObjectno then .ok (truncStripeno % stripesPerObject * su)
      else .ok (truncStripeno % stripesPerObject * su + truncSize % su)

/-- What one block adds to the extents of its object: a new extent, or a longer last one. -/
def addBlock (oid : String) (objectno truncateSize xOffset xLen bufOff : ℕ)
    (exv : List ObjectExtent) : List ObjectExtent :=
  match exv.getLast? with
  | some ex =>
    if ex.offset + ex.length ≠ xOffset then
      exv ++ [⟨oid, objectno, xOffset, xLen, truncateSize, layout.pgPool, [(bufOff, xLen)]⟩]
    else
      exv.dropLast ++ [{ ex with
        length := ex.length + xLen
        bufferExtents := ex.bufferExtents ++ [(bufOff, xLen)] }]
  | none => [⟨oid, objectno, xOffset, xLen, truncateSize, layout.pgPool, [(bufOff, xLen)]⟩]

/-- The loop of `file_to_extents`: one round for each block the range meets. -/
def fileToExtentsLoop (layout : FileLayout) (format : ℕ → String)
    (offset truncSize bufferOffset : ℕ) :
    ℕ → ℕ → ℕ → SortedMap String (List ObjectExtent) → Run (SortedMap String (List ObjectExtent))
  | 0, _, left, m => if left = 0 then .ok m else .error .diverged
  | fuel + 1, cur, left, m =>
    if left = 0 then .ok m
    else do
      let su := layout.stripeUnit
      let stripeCount := layout.stripeCount
      let stripesPerObject := layout.objectSize / su
      let blockno := cur / su
      let stripeno := blockno / stripeCount
      let stripepos := blockno % stripeCount
      let objectsetno := stripeno / stripesPerObject
      let objectno := objectsetno * stripeCount + stripepos
      let oid := format objectno
      let blockStart := stripeno % stripesPerObject * su
      let blockOff := cur % su
      let max := su - blockOff
      let xOffset := blockStart + blockOff
      let xLen := if left > max then max else left
      let truncateSize ← objectTruncateSize layout objectno truncSize
      let exv := (m.find? oid).getD []
      fileToExtentsLoop layout format offset truncSize bufferOffset fuel (u64 (cur + xLen))
        (left - xLen) (m.insert oid (addBlock layout oid objectno truncateSize xOffset xLen
          (u64 (cur - offset + bufferOffset)) exv))

def assimilateExtents (objectExtents : SortedMap String (List ObjectExtent)) :
    List ObjectExtent :=
  objectExtents.entries.flatMap Prod.snd

/-- `file_to_extents` for a printf format of the object names. -/
def fileToExtentsFormat (format : ℕ → String) (offset len truncSize bufferOffset : ℕ) :
    Run (List ObjectExtent) := do
  assertThat (len > 0)
  assertThat (layout.objectSize ≥ layout.stripeUnit)
  let objectExtents ←
    fileToExtentsLoop layout format offset truncSize bufferOffset len offset len ∅
  return assimilateExtents objectExtents

/-- `file_to_extents` for the objects of an inode. -/
def fileToExtents (ino : ℕ) (layout : FileLayout) (offset len truncSize : ℕ) :
    Run (List ObjectExtent) :=
  fileToExtentsFormat layout (objectFormat ino) offset len truncSize 0

def extentToFileLoop (layout : FileLayout) (objectno : ℕ) :
    ℕ → ℕ → ℕ → ℕ → List (ℕ × ℕ) → Run (List (ℕ × ℕ))
  | 0, _, _, len, extents => if len = 0 then .ok extents else .error .diverged
  | fuel + 1, offInBlock, off, len, extents =>
    if len = 0 then .ok extents
    else
      let su := layout.stripeUnit
      let stripeCount := layout.stripeCount
      let stripesPerObject := layout.objectSize / su
      let stripepos := objectno % stripeCount
      let objectsetno := objectno / stripeCount
      let stripeno := u64 (off / su + objectsetno * stripesPerObject)
      let blockno := u64 (stripeno * stripeCount + stripepos)
      let extentOff := u64 (blockno * su + offInBlock)
      let extentLen := min len (su - offInBlock)
      extentToFileLoop layout objectno fuel 0 (u64 (off + extentLen)) (len - extentLen)
        (extents ++ [(extentOff, extentLen)])

def extentToFile (objectno off len : ℕ) : Run (List (ℕ × ℕ)) := do
  assertThat (layout.objectSize ≥ layout.stripeUnit)
  extentToFileLoop layout objectno len (off % layout.stripeUnit) off len []

end Striper

end CephDokan
