import CephDokan.Client.ReadRetry
import CephDokan.Osdc.StripedRead

/-!
# Synchronous reads

`_read_sync` asks the OSDs for the range and fills up with zeros, to the known end of the file,
what they do not have. It counts what is left in an `int`: of a length that does not fit one only
a part is read, and when the file goes on behind that part nobody is told to look for the end.
-/

namespace CephDokan.Client

open Fallible FileBytes List Striper

abbrev Objects := ℕ → Option Bytes

variable (objs : Objects)

def readObject (ex : ObjectExtent) : Except ℤ Bytes :=
  match objs ex.objectno with
  | none => .error (-enoent)
  | some data => .ok (readAt data ex.offset ex.length)

def resultbl (ex : ObjectExtent) : Bytes := (readObject objs ex).toOption.getD []

/-- `Objecter::sg_read_trunc`. The gather over several objects drops what they return. -/
def sgReadTrunc : List ObjectExtent → Run (Except ℤ Bytes)
  | [ex] => pure (readObject objs ex)
  | exs => do
    let (bl, _) ← sgReadFinish exs (exs.map (resultbl objs))
    pure (.ok bl)

/-- `Filer::read_trunc` -/
def readTrunc (ino : ℕ) (layout : FileLayout) (truncSize pos len : ℕ) :
    Run (Except ℤ Bytes) := do
  let exs ← fileToExtents ino layout pos len truncSize
  sgReadTrunc objs exs

variable (layout : FileLayout)

/-- What the OSDs have at a position of the file. -/
def stored (p : ℕ) : Option UInt8 :=
  (objs (layout.objectAt p)).bind fun data => data[layout.offsetAt p]?

def contents (p : ℕ) : UInt8 :=
  (stored objs layout p).getD 0

/-- How much of a range lies before the end of what is stored in it. -/
def storedEnd (off len : ℕ) : ℕ :=
  dataEnd (fun i => stored objs layout (off + i)) len

section Replies

variable (objs : Objects) {layout : FileLayout} (hv : cephFileLayoutIsValid layout = true)
  {ino truncSize off len : ℕ} {exs : List ObjectExtent}

theorem bytes_readObject (ex : ObjectExtent) (size : ℕ) :
    (⟨readObject objs ex, size⟩ : Reply).bytes = .ok (resultbl objs ex) := by
  unfold Reply.bytes resultbl readObject
  cases objs ex.objectno with
  | none => rfl
  | some data => rfl

theorem length_resultbl_le (ex : ObjectExtent) : (resultbl objs ex).length ≤ ex.length := by
  unfold resultbl readObject
  cases objs ex.objectno with
  | none => exact Nat.zero_le _
  | some data => exact (length_readAt _ _ _).trans_le (min_le_left _ _)

theorem getElem?_resultbl {ex} {x} (hlo : ex.offset ≤ x) (hhi : x < ex.offset + ex.length) :
    (resultbl objs ex)[x - ex.offset]? = (objs ex.objectno).bind fun data => data[x]? := by
  unfold resultbl readObject
  cases objs ex.objectno with
  | none => rfl
  | some data =>
    show (readAt data ex.offset ex.length)[x - ex.offset]? = data[x]?
    rw [readAt, getElem?_take_of_lt (by omega), getElem?_drop, Nat.add_sub_cancel' hlo]

include hv

theorem fileByte_resultbl (hexs : RangeExtents hv ino off len truncSize exs) {i}
    (hi : i < len) : fileByte layout off (exs.map fun ex => (ex, .dense (resultbl objs ex))) i =
      stored objs layout (off + i) := by
  have hfind := find?_objectno (pairwise_map.mpr hexs.pair) (mem_map_of_mem
    (f := fun ex => (ex, Striper.Reply.dense (resultbl objs ex))) (hexs.mem_objectAt hi))
  obtain ⟨hlo, hhi⟩ := offsetAt_mem_rangeExtent hv ino off truncSize hi
  unfold fileByte
  rw [show (rangeExtent hv ino off len truncSize (layout.objectAt (off + i))).objectno =
    layout.objectAt (off + i) from rfl] at hfind
  rw [hfind]
  exact getElem?_resultbl objs hlo hhi

theorem readTrunc_spec (ino truncSize size : ℕ) (hlen : 0 < len) (hrange : off + len < 2 ^ 64) :
    ∃ r, readTrunc objs ino layout truncSize off len = .ok r ∧
      (⟨r, size⟩ : Reply).bytes =
        .ok (slice (contents objs layout) off (storedEnd objs layout off len)) := by
  obtain ⟨exs, hrun, hexs⟩ := fileToExtents_spec hv ino truncSize hlen hrange
  have hbyte := fun i (hi : i < len) => fileByte_resultbl objs hv hexs hi
  have hreplies : RepliesTo exs (exs.map fun ex => (ex, .dense (resultbl objs ex))) := by
    refine ⟨by rw [map_map]; exact (map_id exs).symm ▸ .refl _, fun e he => ?_⟩
    obtain ⟨ex, -, rfl⟩ := mem_map.mp he
    exact length_resultbl_le objs ex
  have hread := readResult_spec hv hlen hrange hexs hreplies false
  have hslice : padded (fun i => stored objs layout (off + i)) 0 (storedEnd objs layout off len) =
      slice (contents objs layout) off (storedEnd objs layout off len) := by
    rw [padded_zero, slice, range'_eq_map_range, map_map]
    rfl
  rw [resultEnd, if_neg Bool.false_ne_true, dataEnd_congr hbyte,
    padded_congr fun i hi => hbyte i (hi.trans_le (dataEnd_le len)), ← storedEnd, hslice] at hread
  rw [readTrunc, hrun, ok_bind]
  cases exs with
  | nil => cases hexs.mem_objectAt hlen
  | cons ex exs =>
    cases exs with
    | nil =>
      have hsingle := readResult_single hv hlen hrange hexs (length_resultbl_le objs ex)
      refine ⟨readObject objs ex, rfl, ?_⟩
      rw [bytes_readObject, Except.ok.inj (hsingle.symm.trans hread)]
    | cons ex' exs =>
      refine ⟨.ok _, ?_, rfl⟩
      have hmany : (ex :: ex' :: exs).length > 1 := by simp
      rw [map_prod_left_eq_zip, ← Function.comp_def Striper.Reply.dense, ← map_map] at hread
      simp only [sgReadTrunc, sgReadFinish, if_pos hmany, hread, ok_bind, pure_eq_ok]

end Replies

/-! ### What a call returns -/

section ReadSync

variable {objs : Objects} {layout : FileLayout} {rd : Round} {ino truncSize off len left : ℕ}

theorem stored_of_storedEnd_le {p} (hlo : off + storedEnd objs layout off left ≤ p)
    (hhi : p < off + left) : stored objs layout p = none := by
  by_contra hsome
  obtain ⟨i, rfl⟩ := Nat.exists_eq_add_of_le ((Nat.le_add_right _ _).trans hlo)
  have hle : storedEnd objs layout off left ≤ i := by omega
  have hend := dataEnd_of_le (by omega : i + 1 ≤ left) (hle.trans (Nat.le_succ i))
  rw [dataEnd, if_pos (Option.isSome_iff_ne_none.mpr hsome), ← storedEnd] at hend
  omega

theorem storedEnd_lt_iff (hpos : 0 < left) :
    storedEnd objs layout off left < left ↔ stored objs layout (off + left - 1) = none := by
  constructor
  · intro hlt
    have hle : off + storedEnd objs layout off left ≤ off + left - 1 := by omega
    exact stored_of_storedEnd_le hle (by omega)
  · obtain ⟨k, rfl⟩ := Nat.exists_eq_add_of_le' hpos
    intro hnone
    rw [storedEnd, dataEnd, if_neg (by simpa using hnone)]
    exact Nat.lt_succ_of_le (dataEnd_le k)

theorem readSync_spec (hv : cephFileLayoutIsValid layout = true) (hoff : off < 2 ^ 63)
    (hleft : toInt len = left) (hpos : 0 < left)
    (hosd : readTrunc objs ino layout truncSize off left = .ok (rd.osd off left).result) :
    ∃ piece, readSync rd off len =
        .ok (piece, decide (piece.length < left), (rd.osd off left).size) ∧
      piece = slice (contents objs layout) off piece.length ∧
      piece.length = max (storedEnd objs layout off left)
        (min ((rd.osd off left).size - off) left) := by
  have hlt := toInt_lt len
  obtain ⟨r, hrun, hbytes⟩ := readTrunc_spec objs hv ino truncSize (rd.osd off left).size hpos
    (by omega : off + left < 2 ^ 64)
  rw [Except.ok.inj (hrun.symm.trans hosd)] at hbytes
  simp only [readSync, hleft, Int.toNat_natCast, if_neg (show ¬(left : ℤ) ≤ 0 by omega), hbytes,
    Except.map, length_slice]
  by_cases hshort : storedEnd objs layout off left < left
  · have htbl := length_slice (contents objs layout) off (storedEnd objs layout off left)
    have hhole : ∀ i,
        off + (slice (contents objs layout) off (storedEnd objs layout off left)).length ≤ i →
        i < off + left → i < (rd.osd off left).size → contents objs layout i = 0 := by
      intro i hlo hhi _
      rw [contents, stored_of_storedEnd_le (htbl ▸ hlo) hhi]
      rfl
    have hslice := fillTail_eq (by rw [htbl]) hhole
    obtain ⟨hlength, hflag⟩ := fillTail_length off (rd.osd off left).size (htbl.trans_lt hshort)
    rw [htbl] at hlength
    rw [if_pos hshort]
    exact ⟨_, by rw [hflag], hslice, hlength⟩
  · rw [if_neg hshort]
    refine ⟨_, by rw [length_slice, decide_eq_false hshort], by rw [length_slice], ?_⟩
    rw [length_slice]
    omega

/-- What a caller of `_read_sync` may expect of the bytes and of `checkeof`. -/
structure ReadsExactly (content : ℕ → UInt8) (off len : ℕ) (piece : Bytes) (checkeof : Bool)
    (size : ℕ) : Prop where
  le : piece.length ≤ len
  eq : piece = slice content off piece.length
  full : off + len ≤ size → piece.length = len
  flag : checkeof = true ↔ piece.length < len

end ReadSync

/-- A synchronous read is exact when its length fits an `int`, or when the file ends in the part
that the `int` leaves of it. -/
theorem readSync_exact_iff (hv : cephFileLayoutIsValid layout = true) (objs : Objects)
    (ino truncSize off len : ℕ) (hoff : off < 2 ^ 63) (rd : Round)
    (hosd : ∀ left, 0 < left → left < 2 ^ 31 →
      readTrunc objs ino layout truncSize off left = .ok (rd.osd off left).result) :
    (∃ piece checkeof size, readSync rd off len = .ok (piece, checkeof, size) ∧
        ReadsExactly (contents objs layout) off len piece checkeof size) ↔
      len < 2 ^ 31 ∨ ∃ left : ℕ, toInt len = left ∧ 0 < left ∧
        (rd.osd off left).size < off + left ∧ stored objs layout (off + left - 1) = none := by
  have hlt := toInt_lt len
  by_cases hle : toInt len ≤ 0
  · have hrun : readSync rd off len = .ok ([], false, rd.size) := if_pos hle
    constructor
    · rintro ⟨piece, checkeof, size, hread, hexact⟩
      cases hrun.symm.trans hread
      have hflag := hexact.flag
      simp only [Bool.false_eq_true, length_nil, false_iff] at hflag
      omega
    · rintro (hlen | ⟨left, hleft, hpos, -⟩)
      · rw [toInt_of_lt hlen] at hle
        obtain rfl : len = 0 := by omega
        exact ⟨[], false, _, hrun, le_rfl, rfl, fun _ => rfl, by simp⟩
      · omega
  obtain ⟨left, hleft⟩ := Int.eq_ofNat_of_zero_le (by omega : 0 ≤ toInt len)
  obtain ⟨piece, hread, heq, hlength⟩ := readSync_spec hv hoff hleft (by omega)
    (hosd left (by omega) (by omega))
  have hbound : storedEnd objs layout off left ≤ left := dataEnd_le left
  have hpart := toInt_le len
  have hflag := decide_eq_true_iff (p := piece.length < left)
  have hlast : storedEnd objs layout off left < left ↔ _ := storedEnd_lt_iff (by omega)
  constructor
  · rintro ⟨piece', checkeof, size, hread', hexact⟩
    cases hread.symm.trans hread'
    by_cases hlen : len < 2 ^ 31
    · exact .inl hlen
    have hshort := hflag.mp (hexact.flag.mpr (by omega))
    exact .inr ⟨left, hleft, by omega, by omega, hlast.mp (by omega)⟩
  · intro hcond
    have hends : left = len ∨ piece.length < left := by
      rcases hcond with hlen | ⟨left', hleft', -, hsize, hnone⟩
      · rw [toInt_of_lt hlen] at hleft
        omega
      · obtain rfl : left = left' := by omega
        have := hlast.mpr hnone
        omega
    clear hcond
    refine ⟨piece, _, _, hread, by omega, heq, by omega, hflag.trans ?_⟩
    omega

def threeStored : Objects := fun o => if o = 0 then some [7, 8, 9] else none

def threeStoredLayout : FileLayout :=
  { stripeUnit := 196608, stripeCount := 1, objectSize := 196608, pgPool := 0,
    stripeCount_lt := one_lt_word }

def threeStoredRound : Round where
  caps := .ok false
  size := 5
  inlined := none
  fileRead := fun _ _ => .error 0
  osd := fun pos len => ⟨(readTrunc threeStored 1 threeStoredLayout 0 pos len).toOption.getD
    (.error 0), 5⟩
  getattr := .ok 5
  uninline := 0

/-- A length of half of the `int`s is not read at all. -/
theorem readSync_halfTheInts_empty : threeStoredRound.size = 5 ∧
    stored threeStored threeStoredLayout 0 = some 7 ∧
    readSync threeStoredRound 0 (2 ^ 31) = .ok ([], false, 5) := by
  refine ⟨rfl, by decide, if_pos ?_⟩
  unfold toInt
  decide

/-- Four bytes from the second on, of which the last reads as a zero. -/
theorem readSync_exact_iff_threeStored : ∃ piece checkeof size,
    readSync threeStoredRound 1 4 = .ok (piece, checkeof, size) ∧
      ReadsExactly (contents threeStored threeStoredLayout) 1 4 piece checkeof size := by
  have hosd (left : ℕ) (hpos : 0 < left) (hlt : left < 2 ^ 31) :
      readTrunc threeStored 1 threeStoredLayout 0 1 left =
        .ok (threeStoredRound.osd 1 left).result := by
    have hv : cephFileLayoutIsValid threeStoredLayout = true := by decide
    obtain ⟨r, hrun, -⟩ := readTrunc_spec threeStored hv 1 0 5 hpos (by omega : 1 + left < 2 ^ 64)
    exact eq_ok_getD _ (by rw [hrun]; rfl)
  exact (readSync_exact_iff threeStoredLayout (by decide) threeStored 1 0 1 4 (by decide)
    threeStoredRound hosd).mpr (.inl (by decide))

end CephDokan.Client
