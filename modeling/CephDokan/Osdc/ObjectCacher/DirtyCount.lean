import CephDokan.Osdc.ObjectCacher.FlushWait
import CephDokan.Osdc.ObjectCacher.Snapshots

/-!
# The count of dirty bytes of an object set

`dirty_or_tx` of the only object set of a cache is the number of the bytes that are dirty or
on their way, so whether it is zero can be read off the bytewise model: a write makes bytes
dirty, commits, discards and purges take bytes off, and nothing else changes which bytes
these are.
-/

namespace CephDokan.ObjectCacher

open Fallible FileLayout List SortedMap Set

def Cell.isDirtyOrTx : Cell → Bool
  | .dirty _ _ | .tx _ _ _ => true
  | _ => false

theorem BufferHead.cell_isDirtyOrTx (bh : BufferHead) (b : ℕ) :
    (bh.cell b).isDirtyOrTx = bh.isDirtyOrTx := by
  unfold BufferHead.cell BufferHead.isDirtyOrTx
  cases bh.state <;> rfl

theorem Cell.isDirtyOrTx_forget (x : Cell) : x.forget.isDirtyOrTx = x.isDirtyOrTx := by
  cases x <;> rfl

def unsaved (x : Option Cell) : Bool := x.any Cell.isDirtyOrTx

@[simp] theorem unsaved_none : unsaved none = false := rfl

@[simp] theorem unsaved_some (x : Cell) : unsaved (some x) = x.isDirtyOrTx := rfl

theorem unsaved_map_forget (x : Option Cell) : unsaved (x.map Cell.forget) = unsaved x := by
  cases x with
  | none => rfl
  | some x => exact x.isDirtyOrTx_forget

/-! ### Counting -/

def unsavedBytes (l : List Entry) : Set ℕ := {b | unsaved (cells l b) = true}

theorem cells_behind {e} {l} (h : Shape (e :: l)) {b : ℕ}
    (hb : b < e.1 + e.2.length) : cells l b = none := by
  apply Extents.look_eq_none
  intro e' he'
  have hle := (pairwise_cons.mp h.ordered).1 e' he'
  exact .inl (by omega)

theorem unsavedBytes_cons (e : Entry) (l : List Entry) (h : Shape (e :: l)) :
    unsavedBytes (e :: l) =
      (if e.2.isDirtyOrTx then Set.Ico e.1 (e.1 + e.2.length) else ∅) ∪ unsavedBytes l := by
  ext b
  have hcells : cells (e :: l) b =
      if e.1 ≤ b ∧ b < e.1 + e.2.length then some (e.2.cell b) else cells l b :=
    Extents.look_cons e l b
  by_cases hb : e.1 ≤ b ∧ b < e.1 + e.2.length
  · simp only [unsavedBytes, mem_union, mem_ofPred_eq, hcells, if_pos hb, cells_behind h hb.2,
      unsaved_some, e.2.cell_isDirtyOrTx, unsaved_none]
    by_cases hdirty : e.2.isDirtyOrTx = true
    · simp [hdirty, hb]
    · simp [hdirty]
  · simp only [unsavedBytes, mem_union, mem_ofPred_eq, hcells, if_neg hb]
    by_cases hdirty : e.2.isDirtyOrTx = true
    · simp only [hdirty, if_true, mem_Ico, hb, false_or]
    · simp [hdirty]

theorem dirtyBytes_eq_ncard {l} (h : Shape l) :
    (unsavedBytes l).Finite ∧ dirtyBytes l = (unsavedBytes l).ncard := by
  induction l with
  | nil => simp [unsavedBytes, cells, Extents.look_nil, dirtyBytes]
  | cons e l ih =>
    obtain ⟨hfin, hcount⟩ := ih h.tail
    have hsum := dirtyBytes_mid [] l e
    rw [nil_append, nil_append, hcount] at hsum
    rw [unsavedBytes_cons e l h, hsum]
    by_cases hdirty : e.2.isDirtyOrTx = true
    · simp only [hdirty, if_true]
      have hdisj : Disjoint (Set.Ico e.1 (e.1 + e.2.length)) (unsavedBytes l) := by
        refine disjoint_left.mpr ?_
        intro b hb hl
        simp [unsavedBytes, cells_behind h (mem_Ico.mp hb).2] at hl
      have hico := finite_Ico e.1 (e.1 + e.2.length)
      refine ⟨hico.union hfin, ?_⟩
      rw [ncard_union_eq hdisj hico hfin]
      simp [ncard_eq_toFinset_card']
    · simp [hdirty, hfin]

/-- The bytes of the objects `es` that are dirty or on their way. -/
def unsavedOf (es : List (Soid × Object)) : Set (Soid × ℕ) :=
  {p | ∃ ob, (p.1, ob) ∈ es ∧ p.2 ∈ unsavedBytes ob.data.entries}

theorem unsavedOf_cons (e : Soid × Object) (es : List (Soid × Object)) :
    unsavedOf (e :: es) = Prod.mk e.1 '' unsavedBytes e.2.data.entries ∪ unsavedOf es := by
  ext ⟨key, b⟩
  simp only [unsavedOf, mem_ofPred_eq, mem_union, mem_image, mem_cons, Prod.mk.injEq]
  constructor
  · rintro ⟨ob, rfl | hmem, hb⟩
    · exact .inl ⟨b, hb, rfl, rfl⟩
    · exact .inr ⟨ob, hmem, hb⟩
  · rintro (⟨b', hb, rfl, rfl⟩ | ⟨ob, hmem, hb⟩)
    · exact ⟨e.2, .inl rfl, hb⟩
    · exact ⟨ob, .inr hmem, hb⟩

variable {es : List (Soid × Object)}

theorem sum_dirtyBytes_eq_ncard (hshape : ∀ e ∈ es, Shape e.2.data.entries)
    (hdist : es.Pairwise fun e e' => e.1 ≠ e'.1) : (unsavedOf es).Finite ∧
      (es.map fun e => dirtyBytes e.2.data.entries).sum = (unsavedOf es).ncard := by
  induction es with
  | nil => simp [unsavedOf]
  | cons e es ih =>
    obtain ⟨hone, hshape⟩ := forall_mem_cons.mp hshape
    obtain ⟨hne, hdist⟩ := pairwise_cons.mp hdist
    obtain ⟨hfin, hcount⟩ := ih hshape hdist
    obtain ⟨hfin', hcount'⟩ := dirtyBytes_eq_ncard hone
    have hdisj : Disjoint (Prod.mk e.1 '' unsavedBytes e.2.data.entries) (unsavedOf es) := by
      refine disjoint_left.mpr ?_
      rintro _ ⟨b, -, rfl⟩ ⟨ob, hmem, -⟩
      exact hne _ hmem rfl
    rw [unsavedOf_cons]
    refine ⟨(hfin'.image _).union hfin, ?_⟩
    rw [ncard_union_eq hdisj (hfin'.image _) hfin,
      ncard_image_of_injective _ (Prod.mk_right_injective e.1), map_cons, sum_cons,
      hcount, hcount']
    rfl

def View.unsavedCells (v : View) : Set (Soid × ℕ) := {p | unsaved (v.cell p.1 p.2) = true}

namespace Cacher

variable {c c' : Cacher} {id : ℕ} {key : Soid} {f : Focus}

def Sole (c : Cacher) (id : ℕ) : Prop := ∀ key ob, c.objects.find? key = some ob → ob.oset = id

theorem view_unsavedCells (c : Cacher) : c.view.unsavedCells = unsavedOf c.objects.entries := by
  ext ⟨key, b⟩
  simp only [View.unsavedCells, unsavedOf, mem_ofPred_eq, ← find?_eq_some_iff, view,
    cell, unsavedBytes]
  cases c.objects.find? key with
  | none => simp
  | some ob => simp

theorem sum_dirtyWeight (h : ∀ e ∈ es, e.2.oset = id) :
    ((allItems es).map (Item.dirtyWeight id)).sum =
      (es.map fun e => dirtyBytes e.2.data.entries).sum := by
  induction es with
  | nil => rfl
  | cons e es ih =>
    obtain ⟨hone, h⟩ := forall_mem_cons.mp h
    have hitems : allItems (e :: es) = itemsOf e.2.oset e.2.data.entries + allItems es :=
      allItems_mid [] es e.1 e.2
    rw [hitems, Multiset.map_add, Multiset.sum_add, ih h, map_cons, sum_cons, hone]
    congr 1
    simp [itemsOf, dirtyBytes, Function.comp_def, BufferHead.item_dirtyWeight]

theorem Ok.osetDirtyOrTx_eq (hc : c.Ok) (hsole : c.Sole id) :
    c.view.unsavedCells.Finite ∧ c.books.osetDirtyOrTx id = c.view.unsavedCells.ncard := by
  have hsum := sum_dirtyBytes_eq_ncard (fun e he => (hc.object e he).shape)
    (c.objects.sorted.imp fun h => h.ne)
  rw [view_unsavedCells, hc.books.oset id, sum_dirtyWeight]
  · exact hsum
  · intro e he
    exact hsole e.1 e.2 (find?_of_mem he)

end Cacher

/-! ### What a step does to these bytes -/

variable {x : Cell}

/-- The value of a byte that the store does not have yet, with its snapshot context. -/
def pending : Option Cell → Option (Option UInt8 × SnapContext)
  | some (.dirty x snapc) | some (.tx _ x snapc) => some (x, snapc)
  | _ => none

theorem unsaved_eq_isSome (x : Option Cell) : unsaved x = (pending x).isSome := by
  cases x with
  | none => rfl
  | some x => cases x <;> rfl

theorem Cell.Waiting.saved (h : x.Waiting) : pending (some x) = none := by
  rcases h with rfl | rfl | ⟨tid, rfl⟩ <;> rfl

theorem Cell.Clean.saved (h : x.Clean) : pending (some x) = none := by
  rcases h with rfl | ⟨v, rfl⟩ <;> rfl

theorem Cell.Useless.saved (h : x.Useless) : pending (some x) = none := by
  rcases h with rfl | ⟨tid, rfl⟩ <;> rfl

/-- A step that may change which bytes are dirty or on their way. -/
def Label.Counts : Label → Prop
  | write _ _ _ _ | commit _ _ _ | purge _ | discard _ => True
  | _ => False

def Label.Writes : Label → Prop
  | write _ _ _ _ => True
  | _ => False

/-- Reads, replies to them, flushes, trims and releases. -/
def Op.Spares : Op → Prop
  | writex _ _ _ | writeCommit _ _ | purgeSet _ | discardSet _ _ => False
  | _ => True

theorem Op.Spares.not_counts {op : Op} {l} (hop : op.Spares) (hl : op.Takes l) : ¬l.Counts := by
  cases op <;> cases l <;> simp_all [Spares, Takes, Label.Counts, Label.Reads, Label.Sends]

variable {offset : ℕ}

namespace View

variable {l : Label} {v v' : View}

theorem Does.pending_eq (h : Does l v v') (hl : ¬l.Counts) (key : Soid) (b : ℕ) :
    pending (v'.cell key b) = pending (v.cell key b) := by
  have hturn := h.turns key b
  generalize v'.cell key b = a' at hturn ⊢
  generalize v.cell key b = a at hturn ⊢
  cases hturn with
  | drop hdrop =>
    cases l with
    | abandon | trim | release | reply => exact hdrop.saved.symm
    | purge | discard => exact absurd trivial hl
    | _ => exact hdrop.elim
  | request hx => exact hx.saved.symm
  | write | beside | clean | again => exact absurd trivial hl
  | _ => rfl

theorem Does.unsavedCells_eq (h : Does l v v') (hl : ¬l.Counts) :
    v'.unsavedCells = v.unsavedCells := by
  simp only [unsavedCells, unsaved_eq_isSome, h.pending_eq hl]

theorem Does.unsavedCells_subset (h : Does l v v') (hl : ¬l.Writes) :
    v'.unsavedCells ⊆ v.unsavedCells := by
  rintro ⟨key, b⟩ hmem
  simp only [unsavedCells, mem_ofPred_eq] at hmem ⊢
  have hturn := h.turns key b
  generalize v'.cell key b = a' at hturn hmem
  generalize v.cell key b = a at hturn ⊢
  cases hturn with
  | keep => exact hmem
  | write | beside => exact absurd trivial hl
  | send | clean | again => rfl
  | _ => cases hmem

theorem Does.unsavedCells_write {key} {data} {snapc}
    (h : Does (.write key offset data snapc) v v') :
    v'.unsavedCells = v.unsavedCells ∪ Prod.mk key '' Ico offset (offset + data.length) := by
  ext ⟨key', b⟩
  simp only [unsavedCells, mem_ofPred_eq, mem_union, mem_image, mem_Ico, Prod.mk.injEq]
  by_cases hkey : key' = key
  swap
  · rw [h.elsewhere key' hkey]
    simp [Ne.symm hkey]
  subst hkey
  obtain ⟨hin, hout, -⟩ := h.here b
  by_cases hb : offset ≤ b ∧ b < offset + data.length
  · obtain ⟨s, hcell⟩ := hin hb
    have hcell : v'.cell key' b = _ := hcell
    rw [hcell]
    simp [Cell.isDirtyOrTx, hb]
  · have hsame : unsaved (v'.cell key' b) = unsaved (v.cell key' b) := by
      rw [← unsaved_map_forget (v'.cell key' b), ← unsaved_map_forget (v.cell key' b)]
      exact congrArg unsaved (hout hb)
    rw [hsame]
    constructor
    · exact .inl
    · rintro (h | ⟨b', hb', -, rfl⟩)
      · exact h
      · exact absurd hb' hb

end View

variable {w : WriteCommit} {r : ℤ}

namespace Focus

variable {f f' : Focus} {k : ℕ} {rest : Multiset Item}

theorem sendBh_oset {tid : ℕ} (hrun : f.sendBh k tid = .ok f') : f'.ob.oset = f.ob.oset := by
  obtain ⟨bh, -, hrun⟩ := bind_eq_ok.mp hrun
  obtain ⟨bh', -, hrun⟩ := bind_eq_ok.mp hrun
  obtain ⟨books, -, hrun⟩ := bind_eq_ok.mp hrun
  cases hrun
  simp [exchange, bhStatAdd, assign, bhStatSub, withBooks, statBy_eq]

theorem writeCommit_oset {copied} (hf : f.Ok rest) (hrun : f.writeCommit w r copied = .ok f') :
    f'.ob.oset = f.ob.oset := by
  unfold writeCommit at hrun
  rw [markExists_eq] at hrun
  obtain ⟨g, hg, hrun⟩ := bind_eq_ok.mp hrun
  obtain ⟨-, -, hrun⟩ := bind_eq_ok.mp hrun
  obtain ⟨-, -, hrun⟩ := bind_eq_ok.mp hrun
  cases hrun
  exact (commitLoop_evolves _ (hf.flags _ _) hg).oset

theorem trimBh_oset {maxSize : ℕ} (hf : f.Ok rest)
    (hrun : f.trimBh maxSize k = .ok f') : f'.ob.oset = f.ob.oset := by
  rcases trimBh_evolves hf hrun with rfl | hev
  · rfl
  · exact hev.oset

end Focus

namespace Cacher

variable {c c' : Cacher} {id : ℕ} {key : Soid} {f : Focus} {ls : List Label}

theorem Refines.unsavedCells_eq (h : Refines c ls c') (hls : ∀ l ∈ ls, ¬l.Counts) :
    c'.view.unsavedCells = c.view.unsavedCells :=
  h.trace.invariant (P := fun v => v.unsavedCells = c.view.unsavedCells)
    (fun l hl _ _ hdoes hv => (hdoes.unsavedCells_eq (hls l hl)).trans hv) rfl

theorem Refines.unsavedCells_subset (h : Refines c ls c') (hls : ∀ l ∈ ls, ¬l.Writes) :
    c'.view.unsavedCells ⊆ c.view.unsavedCells :=
  h.trace.invariant (P := fun v => v.unsavedCells ⊆ c.view.unsavedCells)
    (fun l hl _ _ hdoes hv => (hdoes.unsavedCells_subset (hls l hl)).trans hv) subset_rfl

/-- In every state that a run reaches: whatever reads, replies, flushes, trims and releases
follow, no byte that the store does not have yet is lost or changes. -/
theorem run_pending_kept {c'' : Cacher} {ops ops'} (hnew : c.New) (hops : ∀ op ∈ ops, op.Ok)
    (hrun : c.run ops = .ok c') (hspares : ∀ op ∈ ops', op.Spares) (hrun' : c'.run ops' = .ok c'')
    (key : Soid) (b : ℕ) : pending (c''.cell key b) = pending (c'.cell key b) := by
  obtain ⟨⟨_, href⟩, hs⟩ := run_refines hnew.ok hnew.sound hops hrun
  refine (foldlM_invariant (P := fun d => d.Ok ∧ d.view.Sound ∧
    pending (d.cell key b) = pending (c'.cell key b)) hrun' ?_ ⟨href.ok, hs, rfl⟩).2.2
  rintro op hop d d' ⟨hd, hs, heq⟩ hstep
  have hop := hspares op hop
  have hok : op.Ok := by
    cases op with
    | writex => exact hop.elim
    | _ => trivial
  obtain ⟨ls, href, hls⟩ := step_refines hd hs hok hstep
  refine ⟨href.ok, href.sound hs, ?_⟩
  exact href.trace.invariant (P := fun v => pending (v.cell key b) = _)
    (fun l hl _ _ hdoes hv => (hdoes.pending_eq (hop.not_counts (hls l hl)) key b).trans hv) heq

/-- Two dirty bytes are sent, and nothing else may be in the cache. -/
theorem run_pending_kept_sent :
    let c : Cacher := { maxSize := 1, maxObjects := 0 }
    let wr : OSDWrite := ⟨[⟨"1.00000000", 0, 3, 2, 0, 0, [(0, 2)]⟩], ⟨1, [1]⟩, [5, 7], false⟩
    ∃ c' c'', c.run [.writex ⟨0, 0, 0, false⟩ wr 0] = .ok c' ∧
      c'.run [.flushSet ⟨0, 0, 0, false⟩ 0, .releaseAll] = .ok c'' ∧
      pending (c''.cell (soid 0 "1.00000000" cephNosnap) 4) = some (some 7, ⟨1, [1]⟩) := by
  intro c wr
  have hwr : wr.Ok := by constructor <;> decide
  obtain ⟨c', hc', hrun⟩ := exists_eq_getD c (c.run [.writex ⟨0, 0, 0, false⟩ wr 0])
    (by decide +kernel)
  obtain ⟨c'', -, hrun'⟩ := exists_eq_getD c
    (c'.run [.flushSet ⟨0, 0, 0, false⟩ 0, .releaseAll]) (by rw [hc']; decide +kernel)
  refine ⟨c', c'', hrun, hrun', ?_⟩
  rw [run_pending_kept ⟨rfl, rfl, rfl, rfl, rfl⟩ (by simp [Op.Ok, hwr]) hrun (by simp [Op.Spares])
    hrun', hc']
  decide +kernel

def writtenCells (exs : List ObjectExtent) : Set (Soid × ℕ) :=
  {p | ∃ ex ∈ exs, p.1 = writeKey ex ∧ ex.offset ≤ p.2 ∧ p.2 < ex.offset + ex.length}

variable {oset : ObjectSet} {wr : OSDWrite} {now : ℕ}

theorem writex_unsavedCells (hc : c.Ok) (hwr : wr.Ok) (hrun : c.writex oset wr now = .ok c') :
    c'.view.unsavedCells = c.view.unsavedCells ∪ writtenCells wr.extents := by
  have hloop : ∀ (exs : List ObjectExtent) (v v' : View), (∀ ex ∈ exs, ex ∈ wr.extents) →
      Trace View.Does v (exs.map (writeLabel wr)) v' →
      v'.unsavedCells = v.unsavedCells ∪ writtenCells exs := by
    intro exs
    induction exs with
    | nil =>
      intro v v' _ htrace
      rw [htrace.eq_of_nil]
      simp [writtenCells]
    | cons ex exs ih =>
      intro v v' hsub htrace
      obtain ⟨hex, hsub⟩ := forall_mem_cons.mp hsub
      cases htrace with
      | cons hdoes htrace =>
        rw [ih _ _ hsub htrace, hdoes.unsavedCells_write, hwr.length_dataOf hex, union_assoc]
        congr 1
        ext ⟨key, b⟩
        simp only [writtenCells, mem_union, mem_image, mem_Ico, Prod.mk.injEq,
          mem_ofPred_eq, mem_cons, exists_eq_or_imp]
        constructor
        · rintro (⟨b', hb, rfl, rfl⟩ | h)
          · exact .inl ⟨rfl, hb⟩
          · exact .inr h
        · rintro (⟨rfl, hb⟩ | h)
          · exact .inl ⟨b, hb, rfl, rfl⟩
          · exact .inr h
  exact hloop wr.extents c.view c'.view (fun _ he => he) (writex_refines hc hwr hrun).trace

/-! ### The object set of an object -/

variable {ex : ObjectExtent}

section

variable (h : c.Sole id)

include h

theorem Sole.of_objects (heq : c'.objects = c.objects) : c'.Sole id := by
  intro key ob hfind
  exact h key ob (by rwa [← heq])

theorem Sole.put (hf : f.ob.oset = id) : (c.put key f).Sole id := by
  intro key' ob hfind
  by_cases hkey : key' = key
  · subst hkey
    rw [put_find?_self] at hfind
    cases hfind
    exact hf
  · exact h key' ob (by rwa [← put_find?_of_ne c f hkey])

theorem Sole.atObject {op} (hc : c.Ok) (hrun : c.atObject key op = .ok c')
    (hop : ∀ rest f f', Focus.Ok rest f → op f = .ok f' → f'.ob.oset = f.ob.oset) : c'.Sole id := by
  obtain ⟨ob, f', hfind, hf', rfl⟩ := atObject_cases hrun
  obtain ⟨rest, hf, -⟩ := hc.at hfind
  exact h.put ((hop rest _ f' hf hf').trans (h key ob hfind))

theorem Sole.bhWrite {k : ℕ} (hrun : c.bhWrite key k = .ok c') : c'.Sole id := by
  obtain ⟨ob, hfind, hrun⟩ := focus_cases hrun
  obtain ⟨bh, -, hrun⟩ := bind_eq_ok.mp hrun
  obtain ⟨f', hf', hrun⟩ := bind_eq_ok.mp hrun
  cases hrun
  exact (h.put ((Focus.sendBh_oset hf').trans (h key ob hfind))).of_objects rfl

theorem Sole.waitObject {ctx : ℕ} (hrun : c.waitObject ctx key = .ok c') : c'.Sole id := by
  obtain ⟨ob, f', hfind, hf', rfl⟩ := atObject_cases hrun
  cases hf'
  exact h.put (h key ob hfind)

theorem Sole.flush {op : Op} (hc : c.Ok) (hop : op.Flushes)
    (hrun : c.step op = .ok c') : c'.Sole id :=
  (flush_keeps (P := fun d => d.Sole id) (fun _ _ _ _ hrun hd => hd.bhWrite hrun)
    (fun _ _ _ _ hrun hd => hd.waitObject hrun) hop hc hrun h).2

theorem Sole.closeObject {ob} (hrun : c.closeObject key ob = .ok c') : c'.Sole id := by
  obtain ⟨-, -, hrun⟩ := bind_eq_ok.mp hrun
  obtain ⟨-, -, hrun⟩ := bind_eq_ok.mp hrun
  obtain ⟨-, -, hrun⟩ := bind_eq_ok.mp hrun
  obtain ⟨-, -, hrun⟩ := bind_eq_ok.mp hrun
  cases hrun
  intro key' ob' hfind
  have hmem := mem_of_find? hfind
  exact h key' ob' (find?_of_mem (mem_erase.mp hmem).1)

theorem Sole.release (hc : c.Ok) (hrun : c.release key = .ok c') : c'.Sole id := by
  obtain ⟨c1, hdrop, hrun⟩ := bind_eq_ok.mp hrun
  have h1 : c1.Sole id :=
    h.atObject hc hdrop fun _ _ _ hf hop => (Focus.releaseBhs_evolves hf hop).oset
  obtain ⟨ob, hfind, hrun⟩ := focus_cases hrun
  unfold releaseEnd at hrun
  split_ifs at hrun
  · exact h1.closeObject hrun
  · cases hrun
    exact h1.put (h1 key ob hfind)

theorem Sole.purge (hc : c.Ok) (hrun : c.purge key = .ok c') : c'.Sole id :=
  h.atObject hc hrun fun _ _ _ hf hop => (Focus.truncateLoop_evolves _ hf hop).oset

theorem Sole.discardExtent (hc : c.Ok) (hrun : c.discardExtent oset ex = .ok c') : c'.Sole id := by
  unfold Cacher.discardExtent ifCached at hrun
  split_ifs at hrun
  · exact h.atObject hc hrun fun _ _ _ hf hop => (Focus.discard_evolves hf hop).oset
  · cases hrun
    exact h

theorem Sole.trimBh {k : ℕ} (hc : c.Ok) (hrun : c.trimBh key k = .ok c') : c'.Sole id :=
  h.atObject hc hrun fun _ _ _ hf hop => Focus.trimBh_oset hf hop

theorem Sole.trimObject (hrun : c.trimObject key = .ok c') : c'.Sole id := by
  obtain ⟨f, -, hrun⟩ := bind_eq_ok.mp hrun
  split_ifs at hrun
  · exact h.closeObject hrun
  · cases hrun
    exact h

theorem Sole.bhWriteCommit (hc : c.Ok) (hrun : c.bhWriteCommit w r = .ok c') : c'.Sole id := by
  obtain ⟨c1, hcached, hrun⟩ := bind_eq_ok.mp hrun
  cases hrun
  unfold ifCached at hcached
  split_ifs at hcached
  · exact (h.atObject hc hcached fun _ _ _ hf hop => Focus.writeCommit_oset hf hop).of_objects rfl
  · cases hcached
    exact h.of_objects rfl

end

theorem Sole.writeObject (h : c.Sole oset.id) (hc : c.Ok) (hwr : wr.Ok) (hex : ex ∈ wr.extents)
    (hrun : c.writeObject oset wr now ex = .ok c') : c'.Sole oset.id := by
  rcases hwr.fragments hex with ⟨first, hfrag⟩ | hfrags
  swap
  · rw [writeObject_several oset now hc hwr hex hfrags] at hrun
    cases hrun
  obtain ⟨rest, f, l, l', hrun', -, hf, -⟩ := writeObject_spec oset now hc hwr hex hfrag
  cases hrun.symm.trans hrun'
  refine h.put (hf.oset.trans ?_)
  unfold objectFor
  cases hfind : c.objects.find? (writeKey ex) with
  | none => rfl
  | some ob => exact h _ ob hfind

theorem Sole.writex (h : c.Sole oset.id) (hc : c.Ok)
    (hwr : wr.Ok) (hrun : c.writex oset wr now = .ok c') : c'.Sole oset.id :=
  writex_keeps (P := fun d => d.Sole oset.id)
    (fun _ _ _ hok hex hstep hd => hd.writeObject hok hwr hex hstep) hc hwr hrun h

section

variable (h : c.Sole id) (hc : c.Ok)

include h hc

theorem Sole.foldlM {α : Type} {op : Cacher → α → Run Cacher} {as : List α}
    (hrun : as.foldlM op c = .ok c')
    (hop : ∀ a c c', c.Ok → c.Sole id → op c a = .ok c' → c'.Ok ∧ c'.Sole id) : c'.Sole id := by
  have hboth : c'.Ok ∧ c'.Sole id := by
    refine foldlM_invariant (P := fun d => d.Ok ∧ d.Sole id) hrun ?_ ⟨hc, h⟩
    intro a _ d d' hd hstep
    exact hop a d d' hd.1 hd.2 hstep
  exact hboth.2

theorem Sole.releaseSet (hrun : c.releaseSet oset = .ok c') : c'.Sole id := by
  refine h.foldlM hc hrun ?_
  intro key d d' hd hsole hstep
  obtain ⟨ls, href, -⟩ := release_refines hd hstep
  exact ⟨href.ok, hsole.release hd hstep⟩

theorem Sole.purgeSet (hrun : c.purgeSet oset = .ok c') : c'.Sole id := by
  obtain ⟨c1, hfold, hrun⟩ := bind_eq_ok.mp hrun
  obtain ⟨-, -, hrun⟩ := bind_eq_ok.mp hrun
  cases hrun
  refine h.foldlM hc hfold ?_
  intro key d d' hd hsole hstep
  exact ⟨(purge_refines hd hstep).ok, hsole.purge hd hstep⟩

theorem Sole.discardSet {exls : List ObjectExtent} (hrun : c.discardSet oset exls = .ok c') :
    c'.Sole id := by
  unfold Cacher.discardSet at hrun
  split_ifs at hrun
  · cases hrun
    exact h
  · refine h.foldlM hc hrun ?_
    intro ex d d' hd hsole hstep
    obtain ⟨ls, href, -⟩ := discardExtent_refines hd hstep
    exact ⟨href.ok, hsole.discardExtent hd hstep⟩

end

/-! ### Writes of a file -/

open Striper

/-- Where the byte of the file at `pos` lies. -/
def fileCell (layout : FileLayout) (ino pos : ℕ) : Soid × ℕ :=
  (soid layout.pgPool (objectFormat ino (layout.objectAt pos)) cephNosnap, layout.offsetAt pos)

section

variable {layout : FileLayout} (hv : cephFileLayoutIsValid layout = true)

include hv

theorem fileCell_injective (ino : ℕ) : Function.Injective (fileCell layout ino) := by
  intro p q h
  simp only [fileCell, Prod.mk.injEq] at h
  have hname : objectFormat ino (layout.objectAt p) = objectFormat ino (layout.objectAt q) :=
    congrArg Soid.name h.1
  have hobject := objectFormat_injective ino hname
  rw [← (FileLayout.shape hv).position_object p, ← (FileLayout.shape hv).position_object q,
    shape_object, shape_object, shape_offset,
    shape_offset, hobject, h.2]

theorem writtenCells_file {ino len truncSize : ℕ} {exs}
    (hexs : RangeExtents hv ino offset len truncSize exs) :
    writtenCells exs = fileCell layout ino '' Ico offset (offset + len) := by
  ext ⟨key, b⟩
  simp only [writtenCells, mem_ofPred_eq, mem_image, mem_Ico]
  constructor
  · rintro ⟨ex, hex, rfl, hlo, hhi⟩
    obtain ⟨o, -, rfl⟩ := (hexs.mem ex).mp hex
    obtain ⟨i, hi, rfl, rfl⟩ := exists_position hv ino truncSize hlo hhi
    exact ⟨offset + i, by omega, rfl⟩
  · rintro ⟨pos, ⟨hlo, hhi⟩, heq⟩
    obtain ⟨rfl, rfl⟩ := heq
    refine ⟨_, (hexs.mem _).mpr ⟨layout.objectAt pos, ⟨pos, hlo, hhi, rfl⟩, rfl⟩, rfl, ?_⟩
    have hin := offsetAt_mem_rangeExtent hv ino offset truncSize
      (show pos - offset < len by omega)
    rwa [Nat.add_sub_cancel' hlo] at hin

end

end Cacher

end CephDokan.ObjectCacher
