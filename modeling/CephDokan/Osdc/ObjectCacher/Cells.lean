import CephDokan.Lib.Extents
import CephDokan.Osdc.ObjectCacher.Accounting
import CephDokan.Osdc.ObjectCacher.Object

/-!
# Buffer heads byte by byte

What an object holds of one byte is a `Cell`. Cutting a buffer head in two leaves every
cell as it was; joining two heads leaves every cell as it was but for the snapshot
context, which is that of the left head. `Shape` is the arrangement of the heads of an
object: keyed by start, not empty, one after the other, waiters inside.
-/

namespace CephDokan.ObjectCacher

open List

/-- What a buffer head says about one of its bytes. -/
inductive Cell
  | missing
  | clean (v : Option UInt8)
  | zero
  | dirty (v : Option UInt8) (snapc : SnapContext)
  | rx (tid : ℕ)
  | tx (tid : ℕ) (v : Option UInt8) (snapc : SnapContext)
  | error
  deriving DecidableEq, Repr

namespace Cell

def forget : Cell → Cell
  | .dirty v _ => .dirty v ⟨0, []⟩
  | .tx tid v _ => .tx tid v ⟨0, []⟩
  | c => c

end Cell

namespace BufferHead

def cell (bh : BufferHead) (b : ℕ) : Cell :=
  match bh.state with
  | .missing => .missing
  | .clean => .clean bh.bl[b - bh.start]?
  | .zero => .zero
  | .dirty => .dirty bh.bl[b - bh.start]? bh.snapc
  | .rx => .rx bh.lastReadTid
  | .tx => .tx bh.lastWriteTid bh.bl[b - bh.start]? bh.snapc
  | .error => .error

/-- Clean, dirty and tx heads have all their bytes, the others have none. -/
def Filled (bh : BufferHead) : Prop :=
  match bh.state with
  | .clean | .dirty | .tx => bh.bl.length = bh.length
  | .missing | .zero | .rx | .error => bh.bl = []

end BufferHead

abbrev Entry := ℕ × BufferHead

/-- A buffer head at the right key, with at least one byte and its waiters inside. -/
structure EntryOk (e : Entry) : Prop where
  start : e.2.start = e.1
  pos : 0 < e.2.length
  waiters : ∀ w ∈ e.2.waitforRead.entries, e.1 ≤ w.1 ∧ w.1 < e.1 + e.2.length

theorem EntryOk.stop {e} (h : EntryOk e) : e.2.stop = e.1 + e.2.length := by
  rw [BufferHead.stop, h.start]

/-- The arrangement of the buffer heads of an object. -/
structure Shape (l : List Entry) : Prop where
  entry : ∀ e ∈ l, EntryOk e
  ordered : Extents.Ordered BufferHead.length l

/-- What the entries `l` say about byte `b`. -/
def cells (l : List Entry) (b : ℕ) : Option Cell :=
  Extents.look BufferHead.length BufferHead.cell l b

namespace Shape

variable {pre mid mid' post : List Entry} {e : Entry}

theorem nil : Shape [] := ⟨by simp, List.Pairwise.nil⟩

variable {l l' : List Entry}

theorem of_append_left (h : Shape (l ++ l')) : Shape l :=
  ⟨fun e he => h.entry e (mem_append_left _ he), (pairwise_append.mp h.ordered).1⟩

theorem of_append_right (h : Shape (l ++ l')) : Shape l' :=
  ⟨fun e he => h.entry e (mem_append_right _ he), (pairwise_append.mp h.ordered).2.1⟩

theorem tail {l} (h : Shape (e :: l)) : Shape l :=
  ⟨fun f hf => h.entry f (mem_cons_of_mem _ hf), (pairwise_cons.mp h.ordered).2⟩

section

variable (h : Shape (pre ++ e :: post))

include h

theorem pre_le : ∀ f ∈ pre, f.1 + f.2.length ≤ e.1 := by
  intro f hf
  exact (pairwise_append.mp h.ordered).2.2 f hf e mem_cons_self

theorem le_post : ∀ f ∈ post, e.1 + e.2.length ≤ f.1 := by
  intro f hf
  have hp := (pairwise_append.mp h.ordered).2.1
  exact (pairwise_cons.mp hp).1 f hf

theorem mid_ok : EntryOk e := h.entry e (by simp)

end

theorem join (hpre : Shape pre) (hpost : Shape post) (hmid : Shape mid) (lo hi : ℕ)
    (h1 : ∀ e ∈ pre, e.1 + e.2.length ≤ lo) (h2 : ∀ e ∈ mid, lo ≤ e.1 ∧ e.1 + e.2.length ≤ hi)
    (h3 : ∀ e ∈ post, hi ≤ e.1) (hle : lo ≤ hi) : Shape (pre ++ (mid ++ post)) := by
  refine ⟨?_, Extents.ordered_mid lo hi hpre.ordered hmid.ordered hpost.ordered h1 h2 h3 hle⟩
  intro e he
  rcases mem_append.mp he with he | he
  · exact hpre.entry e he
  · rcases mem_append.mp he with he | he
    · exact hmid.entry e he
    · exact hpost.entry e he

theorem remove (h : Shape (pre ++ e :: post)) : Shape (pre ++ post) :=
  ⟨fun f hf => h.entry f (by
      rcases mem_append.mp hf with hf | hf
      · simp [hf]
      · simp [hf]),
    h.ordered.sublist (List.Sublist.append_left (sublist_cons_self e post) pre)⟩

theorem singleton (h : EntryOk e) : Shape [e] := ⟨by simpa using h, pairwise_singleton _ _⟩

theorem set (h : Shape (pre ++ e :: post)) {e'} (he : EntryOk e') (hkey : e'.1 = e.1)
    (hroom : ∀ f ∈ post, e'.1 + e'.2.length ≤ f.1) : Shape (pre ++ e' :: post) := by
  refine join h.of_append_left h.of_append_right.tail (singleton he) e.1
    (e'.1 + e'.2.length) h.pre_le ?_ hroom ?_
  · intro f hf
    obtain rfl := mem_singleton.mp hf
    exact ⟨hkey.ge, le_rfl⟩
  · omega

theorem add (h : Shape (pre ++ post)) (he : EntryOk e) (h1 : ∀ f ∈ pre, f.1 + f.2.length ≤ e.1)
    (h2 : ∀ f ∈ post, e.1 + e.2.length ≤ f.1) : Shape (pre ++ e :: post) := by
  refine join h.of_append_left h.of_append_right (singleton he) e.1
    (e.1 + e.2.length) h1 ?_ h2 (by omega)
  intro f hf
  obtain rfl := mem_singleton.mp hf
  exact ⟨le_rfl, le_rfl⟩

theorem same (h : Shape (pre ++ e :: post)) {bh} (hstart : bh.start = e.2.start)
    (hlen : bh.length = e.2.length) (hwait : bh.waitforRead = e.2.waitforRead) :
    Shape (pre ++ (e.1, bh) :: post) := by
  have he := h.mid_ok
  refine h.set ⟨hstart.trans he.start, ?_, ?_⟩ rfl ?_
  · exact hlen ▸ he.pos
  · rw [hlen, hwait]
    exact he.waiters
  · intro f hf
    rw [hlen]
    exact h.le_post f hf

end Shape

variable {pre post : List Entry}

theorem cells_skip (k : ℕ) (bh : BufferHead) {b : ℕ} (hb : b < k ∨ k + bh.length ≤ b) :
    cells (pre ++ (k, bh) :: post) b = cells (pre ++ post) b := by
  have hnone : Extents.look BufferHead.length BufferHead.cell [(k, bh)] b = none := by
    apply Extents.look_eq_none
    intro e he
    obtain rfl := mem_singleton.mp he
    exact hb
  exact Extents.look_congr pre [(k, bh)] [] post hnone

theorem cells_mid {k b : ℕ} {bh} (h : Shape (pre ++ (k, bh) :: post)) (h1 : k ≤ b)
    (h2 : b < k + bh.length) : cells (pre ++ (k, bh) :: post) b = some (bh.cell b) :=
  Extents.look_of_mem h.ordered (e := (k, bh)) (by simp) h1 h2

namespace BufferHead

/-- The part before `off` of a head that is cut there. -/
def cutLeft (bh : BufferHead) (off : ℕ) : BufferHead :=
  { bh with
    length := off - bh.start
    bl := bh.bl.take (off - bh.start)
    waitforRead := (Focus.splitWaiters bh.waitforRead off).1 }

/-- The part from `off` on of a head that is cut there. -/
def cutRight (bh : BufferHead) (off id : ℕ) : BufferHead :=
  { id := id
    state := bh.state
    start := off
    length := bh.length - (off - bh.start)
    dontneed := bh.dontneed
    bl := bh.bl.drop (off - bh.start)
    lastWriteTid := bh.lastWriteTid
    lastReadTid := bh.lastReadTid
    snapc := bh.snapc
    waitforRead := (Focus.splitWaiters bh.waitforRead off).2 }

def joined (l r : BufferHead) : BufferHead :=
  { l with
    length := l.length + r.length
    bl := l.bl ++ r.bl
    lastWriteTid := max l.lastWriteTid r.lastWriteTid
    lastWrite := max l.lastWrite r.lastWrite
    dontneed := if r.dontneed then l.dontneed else false
    waitforRead := Focus.mergeWaiters l.waitforRead r.waitforRead }

theorem Filled.bl_length {bh : BufferHead} (h : bh.Filled) :
    bh.bl = [] ∨ bh.bl.length = bh.length := by
  unfold Filled at h
  split at h
  all_goals simp [h]

variable {bh : BufferHead} {off : ℕ}

theorem Filled.cutLeft (h : bh.Filled) (hlen : off - bh.start ≤ bh.length) :
    (bh.cutLeft off).Filled := by
  unfold Filled at h ⊢
  simp only [BufferHead.cutLeft]
  split <;> simp_all

theorem Filled.cutRight (h : bh.Filled) (id : ℕ) : (bh.cutRight off id).Filled := by
  unfold Filled at h ⊢
  simp only [BufferHead.cutRight]
  split <;> simp_all

theorem Filled.joined {l r : BufferHead} (hl : l.Filled) (hr : r.Filled)
    (hstate : l.state = r.state) : (l.joined r).Filled := by
  unfold Filled at hl hr ⊢
  simp only [BufferHead.joined]
  rw [← hstate] at hr
  clear hstate
  split <;> simp_all

variable {b : ℕ}

theorem cell_cutLeft (hb : b < off) (hs : bh.start ≤ b) : (bh.cutLeft off).cell b = bh.cell b := by
  have hget : (bh.bl.take (off - bh.start))[b - bh.start]? = bh.bl[b - bh.start]? :=
    getElem?_take_of_lt (by omega)
  unfold cell
  simp only [cutLeft, hget]

theorem cell_cutRight (hb : off ≤ b) (hs : bh.start ≤ off) (id : ℕ) :
    (bh.cutRight off id).cell b = bh.cell b := by
  have hget : (bh.bl.drop (off - bh.start))[b - off]? = bh.bl[b - bh.start]? := by
    rw [getElem?_drop]
    congr 1
    omega
  unfold cell
  simp only [cutRight, hget]

theorem cell_joined_left {l r : BufferHead} (hfill : l.Filled) (htx : l.state ≠ .tx)
    (hb : b < l.stop) (hs : l.start ≤ b) : (l.joined r).cell b = l.cell b := by
  have hlt : b - l.start < l.length := by
    unfold stop at hb
    omega
  unfold cell Filled at *
  simp only [joined]
  split <;> simp_all [getElem?_append_left]

section

variable {l r : BufferHead} (hfill : l.Filled) (hstop : l.stop = r.start)
  (hstate : l.state = r.state) (htx : l.state ≠ .tx) (hrx : l.state ≠ .rx)

include hfill hstop hstate htx hrx

/-- The bytes of the right head keep their value and state; as to the snapshot context
they are bytes of the left head now. -/
theorem cell_joined_right (hb : r.start ≤ b) :
    ((l.joined r).cell b).forget = (r.cell b).forget := by
  have hoff : b - l.start = l.length + (b - r.start) := by
    unfold stop at hstop
    omega
  have hget : l.bl.length = l.length → (l.bl ++ r.bl)[b - l.start]? = r.bl[b - r.start]? := by
    intro hlen
    rw [getElem?_append_right (by omega), hoff, hlen, Nat.add_sub_cancel_left]
  unfold cell Filled at *
  simp only [joined]
  rw [← hstate]
  clear hstate
  split <;> simp_all [Cell.forget]

theorem cell_joined_right_eq (hsnapc : l.state = .dirty → l.snapc = r.snapc) (hb : r.start ≤ b) :
    (l.joined r).cell b = r.cell b := by
  have hforget := cell_joined_right hfill hstop hstate htx hrx hb
  unfold cell at *
  simp only [joined] at *
  rw [← hstate] at *
  split at hforget <;> simp_all [Cell.forget]

end

end BufferHead

section Waiters

variable {w left right : SortedMap ℕ (List ℕ)} {off : ℕ} {e : ℕ × List ℕ}

theorem mem_splitWaiters_left : e ∈ (Focus.splitWaiters w off).1.entries ↔
    e ∈ w.entries ∧ e.1 < off := by
  simp [Focus.splitWaiters, SortedMap.filterKeys]

theorem mem_splitWaiters_right : e ∈ (Focus.splitWaiters w off).2.entries ↔
    e ∈ w.entries ∧ off ≤ e.1 := by
  simp [Focus.splitWaiters, SortedMap.filterKeys]

theorem mem_mergeWaiters (he : e ∈ (Focus.mergeWaiters left right).entries) :
    (∃ v, (e.1, v) ∈ left.entries) ∨ ∃ v, (e.1, v) ∈ right.entries := by
  unfold Focus.mergeWaiters at he
  revert he
  generalize right.entries = l
  induction l generalizing left with
  | nil =>
    intro he
    exact .inl ⟨e.2, he⟩
  | cons x l ih =>
    intro he
    rcases ih he with ⟨v, hv⟩ | ⟨v, hv⟩
    · rcases (SortedMap.mem_insert _ _ _).mp hv with heq | ⟨hv, -⟩
      · obtain ⟨hkey, -⟩ := Prod.mk.inj heq
        exact .inr ⟨x.2, by simp [hkey]⟩
      · exact .inl ⟨v, hv⟩
    · exact .inr ⟨v, mem_cons_of_mem _ hv⟩

end Waiters

section Cut

variable {pre post : List Entry} {k off : ℕ} {bh : BufferHead}

theorem EntryOk.cutLeft (h : EntryOk (k, bh)) (hoff : k < off) : EntryOk (k, bh.cutLeft off) := by
  have hstart : bh.start = k := h.start
  refine ⟨h.start, ?_, ?_⟩
  · simp only [BufferHead.cutLeft]
    omega
  · intro w hw
    obtain ⟨hw, hlt⟩ := mem_splitWaiters_left.mp hw
    have := h.waiters w hw
    simp only [BufferHead.cutLeft] at *
    omega

theorem EntryOk.cutRight (h : EntryOk (k, bh)) (hoff : k < off) (hlen : off < k + bh.length)
    (id : ℕ) : EntryOk (off, bh.cutRight off id) := by
  have hstart : bh.start = k := h.start
  refine ⟨rfl, ?_, ?_⟩
  · simp only [BufferHead.cutRight]
    omega
  · intro w hw
    obtain ⟨hw, hle⟩ := mem_splitWaiters_right.mp hw
    have := h.waiters w hw
    simp only [BufferHead.cutRight] at *
    omega

theorem Shape.cut (h : Shape (pre ++ (k, bh) :: post)) (hoff : k < off)
    (hlen : off < k + bh.length) (id : ℕ) :
    Shape (pre ++ (k, bh.cutLeft off) :: (off, bh.cutRight off id) :: post) := by
  have hstart : bh.start = k := h.mid_ok.start
  have hleft := h.mid_ok.cutLeft hoff
  have hright := h.mid_ok.cutRight hoff hlen id
  have hmid : Shape [(k, bh.cutLeft off), (off, bh.cutRight off id)] := by
    refine ⟨by simpa using ⟨hleft, hright⟩, ?_⟩
    simp only [Extents.Ordered, pairwise_pair, BufferHead.cutLeft]
    omega
  refine Shape.join h.of_append_left h.of_append_right.tail hmid k (k + bh.length) h.pre_le ?_
    h.le_post (by omega)
  intro e he
  simp only [mem_cons, not_mem_nil, or_false] at he
  rcases he with rfl | rfl
  · simp only [BufferHead.cutLeft]
    omega
  · simp only [BufferHead.cutRight]
    omega

theorem cells_cut (h : EntryOk (k, bh)) (hoff : k < off) (hlen : off < k + bh.length) (id : ℕ) :
    cells (pre ++ (k, bh.cutLeft off) :: (off, bh.cutRight off id) :: post) =
      cells (pre ++ (k, bh) :: post) := by
  have hstart : bh.start = k := h.start
  funext b
  refine Extents.look_congr pre [_, _] [_] post ?_
  simp only [Extents.look_cons, Extents.look_nil]
  have hl : (bh.cutLeft off).length = off - k := by simp only [BufferHead.cutLeft, hstart]
  have hr : (bh.cutRight off id).length = bh.length - (off - k) := by
    simp only [BufferHead.cutRight, hstart]
  by_cases hin : k ≤ b ∧ b < k + bh.length
  · rw [if_pos hin]
    by_cases hb : b < off
    · rw [if_pos (by omega), BufferHead.cell_cutLeft hb (by omega)]
    · rw [if_neg (by omega), if_pos (by omega), BufferHead.cell_cutRight (by omega) (by omega)]
  · rw [if_neg hin, if_neg (by omega), if_neg (by omega)]

end Cut

section Join

variable {pre post : List Entry} {kl kr : ℕ} {l r : BufferHead}

section

variable (h : Shape (pre ++ (kl, l) :: (kr, r) :: post)) (hstop : l.stop = kr)

include h hstop

theorem Shape.joined : Shape (pre ++ (kl, l.joined r) :: post) := by
  have hl : EntryOk (kl, l) := h.mid_ok
  have hr : EntryOk (kr, r) := h.entry _ (by simp)
  have hpost : ∀ e ∈ post, kr + r.length ≤ e.1 := by
    have h' : Shape ((pre ++ [(kl, l)]) ++ (kr, r) :: post) := by simpa using h
    exact h'.le_post
  have hlen : (l.joined r).length = l.length + r.length := rfl
  have hroom : l.stop = kl + l.length := hl.stop
  have hok : EntryOk (kl, l.joined r) := by
    refine ⟨hl.start, ?_, ?_⟩
    · have := hl.pos
      simp only [hlen] at *
      omega
    · intro w hw
      rcases mem_mergeWaiters hw with ⟨v, hv⟩ | ⟨v, hv⟩
      · have := hl.waiters _ hv
        simp only [hlen] at *
        omega
      · have := hr.waiters _ hv
        simp only [hlen] at *
        omega
  refine Shape.set (e := (kl, l)) ?_ hok rfl ?_
  · have h' : Shape ((pre ++ [(kl, l)]) ++ (kr, r) :: post) := by simpa using h
    simpa using h'.remove
  · intro f hf
    have := hpost f hf
    simp only [hlen]
    omega

theorem cells_joined_at {γ : Type*} (g : Cell → γ) (b : ℕ)
    (hleft : l.start ≤ b → b < l.stop → g ((l.joined r).cell b) = g (l.cell b))
    (hright : r.start ≤ b → g ((l.joined r).cell b) = g (r.cell b)) :
    (cells (pre ++ (kl, l.joined r) :: post) b).map g =
      (cells (pre ++ (kl, l) :: (kr, r) :: post) b).map g := by
  have hl : EntryOk (kl, l) := h.mid_ok
  have hr : EntryOk (kr, r) := h.entry _ (by simp)
  have hsl : l.start = kl := hl.start
  have hsr : r.start = kr := hr.start
  have hroom : l.stop = kl + l.length := hl.stop
  refine Extents.look_map_congr g pre [_] [_, _] post ?_
  simp only [Extents.look_cons, Extents.look_nil]
  have hlen : (l.joined r).length = l.length + r.length := rfl
  rw [hlen]
  by_cases hin : kl ≤ b ∧ b < kl + (l.length + r.length)
  · rw [if_pos hin]
    by_cases hb : b < kl + l.length
    · rw [if_pos ⟨hin.1, hb⟩]
      exact congrArg some (hleft (by omega) (by omega))
    · rw [if_neg (fun hc => hb hc.2), if_pos (by omega)]
      exact congrArg some (hright (by omega))
  · rw [if_neg hin, if_neg (by omega), if_neg (by omega)]

section

variable (hfill : l.Filled) (hstate : l.state = r.state) (htx : l.state ≠ .tx) (hrx : l.state ≠ .rx)

include hfill hstate htx hrx

theorem cells_joined_forget (b : ℕ) : (cells (pre ++ (kl, l.joined r) :: post) b).map Cell.forget =
      (cells (pre ++ (kl, l) :: (kr, r) :: post) b).map Cell.forget := by
  have hsr : r.start = kr := (h.entry (kr, r) (by simp)).start
  apply cells_joined_at h hstop
  · intro hb hlt
    rw [BufferHead.cell_joined_left hfill htx hlt hb]
  · intro hb
    exact BufferHead.cell_joined_right hfill (hstop.trans hsr.symm) hstate htx hrx hb

theorem cells_joined (hsnapc : l.state = .dirty → l.snapc = r.snapc) (b : ℕ) :
    cells (pre ++ (kl, l.joined r) :: post) b = cells (pre ++ (kl, l) :: (kr, r) :: post) b := by
  have hsr : r.start = kr := (h.entry (kr, r) (by simp)).start
  have hid : ∀ o : Option Cell, o.map id = o := fun _ => Option.map_id_apply
  rw [← hid (cells (pre ++ (kl, l.joined r) :: post) b), cells_joined_at h hstop id b, hid]
  · intro hb hlt
    exact BufferHead.cell_joined_left hfill htx hlt hb
  · intro hb
    exact BufferHead.cell_joined_right_eq hfill (hstop.trans hsr.symm) hstate htx hrx hsnapc hb

end

end

end Join

end CephDokan.ObjectCacher
