import CephDokan.Osdc.ObjectCacher.Invariant
import CephDokan.Osdc.ObjectCacher.MapWrite

/-!
# How the operations change one object

`Evolves R f f'` says that the object is in order after an operation, that each byte went
from its old cell to its new one as `R` allows, and that the rest of the object is as it
was. Every operation of the cache on buffer heads is described this way, whatever it was
called for; a call that does not return is not described.
-/

namespace CephDokan.ObjectCacher

open Fallible SortedMap List

abbrev CellRel := Option Cell → Option Cell → Prop

/-- A byte keeps its cell, or loses it if `p` holds of it. -/
def Drops (p : Cell → Prop) : CellRel := fun c c' => c' = c ∨ c' = none ∧ ∃ x, c = some x ∧ p x

def Cell.Clean (c : Cell) : Prop := c = .zero ∨ ∃ v, c = .clean v

def Cell.Useless (c : Cell) : Prop := c = .zero ∨ ∃ tid, c = .rx tid

variable {p : Cell → Prop}

theorem Drops.refl (c : Option Cell) : Drops p c c := .inl rfl

theorem Drops.trans {a b c} (h : Drops p a b) (h' : Drops p b c) : Drops p a c := by
  rcases h' with rfl | ⟨rfl, x, rfl, hx⟩
  · exact h
  · rcases h with h | ⟨h, -⟩
    · exact .inr ⟨rfl, x, h.symm, hx⟩
    · cases h

namespace Focus

structure Evolves (rest : Multiset Item) (R : CellRel) (f f' : Focus) : Prop where
  ok : f'.Ok rest
  cells : ∀ b, R (cells f.ob.data.entries b) (cells f'.ob.data.entries b)
  frame : f'.ob.frame = f.ob.frame

namespace Evolves

variable {rest : Multiset Item} {R S : CellRel} {f f' f'' : Focus}

theorem refl (hf : f.Ok rest) (hR : ∀ c, R c c) : Evolves rest R f f := ⟨hf, fun _ => hR _, rfl⟩

theorem trans (h : Evolves rest R f f') (h' : Evolves rest R f' f'')
    (hR : ∀ a b c, R a b → R b c → R a c) : Evolves rest R f f'' :=
  ⟨h'.ok, fun b => hR _ _ _ (h.cells b) (h'.cells b), h'.frame.trans h.frame⟩

theorem mono (h : Evolves rest R f f') (hRS : ∀ a b, R a b → S a b) : Evolves rest S f f' :=
  ⟨h.ok, fun b => hRS _ _ (h.cells b), h.frame⟩

theorem then_same (h : Evolves rest R f f') (h' : Evolves rest (fun a b => b = a) f' f'') :
    Evolves rest R f f'' :=
  ⟨h'.ok, fun b => by rw [h'.cells b]; exact h.cells b, h'.frame.trans h.frame⟩

theorem same_then (h : Evolves rest (fun a b => b = a) f f') (h' : Evolves rest R f' f'') :
    Evolves rest R f f'' :=
  ⟨h'.ok, fun b => by rw [← h.cells b]; exact h'.cells b, h'.frame.trans h.frame⟩

theorem oid (h : Evolves rest R f f') : f'.ob.oid = f.ob.oid := (congrArg Object.oid h.frame :)

theorem complete (h : Evolves rest R f f') : f'.ob.complete = f.ob.complete :=
  (congrArg Object.complete h.frame :)

theorem oset (h : Evolves rest R f f') : f'.ob.oset = f.ob.oset := (congrArg Object.oset h.frame :)

end Evolves

variable {rest : Multiset Item} {R : CellRel} {f f' : Focus} {pre post : List Entry} {k : ℕ}
  {bh bh' : BufferHead}

def withFlags (f : Focus) (complete objExists : Bool) : Focus :=
  { f with ob := { f.ob with complete := complete, objExists := objExists } }

theorem Ok.flags (hf : f.Ok rest) (complete objExists : Bool) :
    (f.withFlags complete objExists).Ok rest :=
  ⟨⟨hf.accounts.books, hf.accounts.dirty, hf.accounts.held⟩, hf.shape, hf.filled⟩

theorem Evolves.flags (h : Evolves rest R f f') (complete objExists : Bool) :
    Evolves rest R (f.withFlags complete objExists) (f'.withFlags complete objExists) := by
  refine ⟨h.ok.flags complete objExists, h.cells, ?_⟩
  have hframe := congrArg
    (fun ob : Object => { ob with complete := complete, objExists := objExists }) h.frame
  exact hframe

section

variable (hf : f.Ok rest) (h : f.ob.data.entries = pre ++ (k, bh) :: post)

include hf h

theorem Ok.entry : EntryOk (k, bh) := hf.shape.entry _ (by simp [h])

theorem Ok.fill : bh.Filled :=
  hf.filled (k, bh) (by simp [h])

end

theorem Ok.splice (mid mid' : List Entry) (hf : f.Ok rest)
    (h : f.ob.data.entries = pre ++ (mid ++ post)) (hb : Becomes rest f (pre ++ (mid' ++ post)) f')
    (hshape : Shape (pre ++ (mid' ++ post))) (hfill : ∀ e ∈ mid', e.2.Filled) : f'.Ok rest := by
  refine ⟨hb.accounts, hb.entries ▸ hshape, fun e he => ?_⟩
  rw [hb.entries] at he
  simp only [mem_append] at he
  rcases he with he | he | he
  · exact hf.filled e (by simp [h, he])
  · exact hfill e he
  · exact hf.filled e (by simp [h, he])

theorem cells_gap (h : Shape (pre ++ (k, bh) :: post)) {b : ℕ}
    (hin : k ≤ b ∧ b < k + bh.length) : ObjectCacher.cells (pre ++ post) b = none := by
  apply Extents.look_eq_none
  intro e he
  rcases mem_append.mp he with he | he
  · have hend : e.1 + e.2.length ≤ k := h.pre_le e he
    omega
  · have hbegin : k + bh.length ≤ e.1 := h.le_post e he
    omega

theorem deref_cases (h : f.deref k = .ok bh) :
    ∃ pre post, f.ob.data.entries = pre ++ (k, bh) :: post := by
  unfold deref at h
  split at h
  · next x hx =>
    cases h
    exact exists_split_of_find? hx
  · cases h

theorem Ok.deref_cases (hf : f.Ok rest) (hd : f.deref k = .ok bh) :
    ∃ pre post, f.ob.data.entries = pre ++ (k, bh) :: post ∧ EntryOk (k, bh) ∧ bh.Filled := by
  obtain ⟨pre, post, he⟩ := Focus.deref_cases hd
  exact ⟨pre, post, he, hf.entry he, hf.fill he⟩

section

variable (hf : f.Ok rest) (h : f.ob.data.entries = pre ++ (k, bh) :: post)
  (hb : Becomes rest f (pre ++ (k, bh') :: post) f') (hok : EntryOk (k, bh'))
  (hlen : bh'.length = bh.length) (hfill : bh'.Filled)

include hf h hb hok hlen hfill

theorem Ok.replaced : f'.Ok rest ∧ ∀ b, cells f'.ob.data.entries b =
      if k ≤ b ∧ b < k + bh.length then some (bh'.cell b) else cells f.ob.data.entries b := by
  have hshape : Shape (pre ++ (k, bh) :: post) := h ▸ hf.shape
  have hshape' : Shape (pre ++ (k, bh') :: post) := by
    refine hshape.set hok rfl ?_
    intro e he
    rw [hlen]
    exact hshape.le_post e he
  refine ⟨hf.splice [(k, bh)] [(k, bh')] h hb hshape' (by simpa using hfill), fun b => ?_⟩
  rw [hb.entries, h]
  split_ifs with hin
  · exact cells_mid hshape' hin.1 (by rw [hlen]; exact hin.2)
  · rw [cells_skip k bh (by omega), cells_skip k bh' (by rw [hlen]; omega)]

theorem Ok.replace (hR : ∀ c, R c c)
    (hcell : ∀ b, k ≤ b → b < k + bh.length → R (some (bh.cell b)) (some (bh'.cell b))) :
    Evolves rest R f f' := by
  obtain ⟨hok', hcells⟩ := hf.replaced h hb hok hlen hfill
  refine ⟨hok', ?_, hb.frame⟩
  intro b
  rw [hcells]
  split_ifs with hin
  · rw [h, cells_mid (h ▸ hf.shape) hin.1 hin.2]
    exact hcell b hin.1 hin.2
  · exact hR _

end

theorem Ok.remove (hf : f.Ok rest) (h : f.ob.data.entries = pre ++ (k, bh) :: post)
    (hb : Becomes rest f (pre ++ post) f') (hR : ∀ c, R c c)
    (hcell : ∀ b, k ≤ b → b < k + bh.length → R (some (bh.cell b)) none) : Evolves rest R f f' := by
  have hshape : Shape (pre ++ (k, bh) :: post) := h ▸ hf.shape
  refine ⟨hf.splice [(k, bh)] [] h hb hshape.remove (forall_mem_nil _), fun b => ?_, hb.frame⟩
  rw [hb.entries, h]
  by_cases hin : k ≤ b ∧ b < k + bh.length
  · rw [cells_mid hshape hin.1 hin.2, cells_gap hshape hin]
    exact hcell b hin.1 hin.2
  · rw [cells_skip k bh (by omega)]
    exact hR _

theorem Ok.add (hf : f.Ok rest) (h : f.ob.data.entries = pre ++ post)
    (hb : Becomes rest f (pre ++ (k, bh) :: post) f') (hok : EntryOk (k, bh)) (hfill : bh.Filled)
    (hpre : ∀ e ∈ pre, e.1 + e.2.length ≤ k) (hpost : ∀ e ∈ post, k + bh.length ≤ e.1)
    (hR : ∀ c, R c c) (hcell : ∀ b, R none (some (bh.cell b))) : Evolves rest R f f' := by
  have hshape : Shape (pre ++ (k, bh) :: post) := Shape.add (h ▸ hf.shape) hok hpre hpost
  refine ⟨hf.splice [] [(k, bh)] h hb hshape (by simpa using hfill), fun b => ?_, hb.frame⟩
  rw [hb.entries, h]
  by_cases hin : k ≤ b ∧ b < k + bh.length
  · rw [cells_mid hshape hin.1 hin.2, cells_gap hshape hin]
    exact hcell b
  · rw [cells_skip k bh (by omega)]
    exact hR _

variable {off : ℕ}

theorem Ok.cut (hf : f.Ok rest) (h : f.ob.data.entries = pre ++ (k, bh) :: post) {id : ℕ}
    (hoff : k < off) (hlen : off < k + bh.length)
    (hb : Becomes rest f (pre ++ (k, bh.cutLeft off) :: (off, bh.cutRight off id) :: post) f') :
    Evolves rest (fun a b => b = a) f f' := by
  have hshape : Shape (pre ++ (k, bh) :: post) := h ▸ hf.shape
  have hstart : bh.start = k := hshape.mid_ok.start
  have hfill := hf.fill h
  refine ⟨hf.splice [(k, bh)] [_, _] h hb (hshape.cut hoff hlen id) ?_, fun b => ?_, hb.frame⟩
  · simpa using ⟨hfill.cutLeft (by omega), hfill.cutRight id⟩
  · rw [hb.entries, h, cells_cut hshape.mid_ok hoff hlen id]

/-! ### Operations that change no byte -/

section

variable (hf : f.Ok rest)

include hf

theorem touchBh_evolves (hrun : f.touchBh k = .ok f') : Evolves rest (fun a b => b = a) f f' := by
  obtain ⟨bh, hd, -⟩ := bind_eq_ok.mp hrun
  obtain ⟨pre, post, he, hok, hfill⟩ := hf.deref_cases hd
  obtain ⟨f1, hrun1, hb⟩ := touchBh_spec hf.accounts he
  cases hrun.symm.trans hrun1
  exact hf.replace he hb ⟨hok.start, hok.pos, hok.waiters⟩ rfl hfill (fun _ => rfl)
    (fun _ _ _ => rfl)

theorem assign_evolves (he : f.ob.data.entries = pre ++ (k, bh) :: post)
    (hitem : bh'.item f.ob.oset = bh.item f.ob.oset) (hok : EntryOk (k, bh'))
    (hfill : bh'.Filled) (hcell : ∀ b, bh'.cell b = bh.cell b) :
    Evolves rest (fun a b => b = a) f (f.assign k bh') := by
  have hlen : bh'.length = bh.length := by
    simp only [BufferHead.item, Item.mk.injEq] at hitem
    exact hitem.2.2.1
  exact hf.replace he (assign_spec hf.accounts he hitem) hok hlen hfill (fun _ => rfl)
    (fun b _ _ => congrArg some (hcell b))

theorem addWaiter_evolves {first ctx : ℕ}
    (hin : ∀ bh, f.deref k = .ok bh → k ≤ first ∧ first < k + bh.length)
    (hrun : f.addWaiter k first ctx = .ok f') : Evolves rest (fun a b => b = a) f f' := by
  obtain ⟨bh, hd, hrun⟩ := bind_eq_ok.mp hrun
  cases hrun
  obtain ⟨pre, post, he, hok, hfill⟩ := hf.deref_cases hd
  refine assign_evolves hf he rfl ⟨hok.start, hok.pos, ?_⟩ hfill (fun _ => rfl)
  intro w hw
  rcases (mem_insert _ _ _).mp hw with rfl | ⟨hw, -⟩
  · exact hin bh hd
  · exact hok.waiters w hw

theorem clearWaiters_evolves (hrun : f.clearWaiters k = .ok f') :
    Evolves rest (fun a b => b = a) f f' := by
  obtain ⟨bh, hd, hrun⟩ := bind_eq_ok.mp hrun
  cases hrun
  obtain ⟨pre, post, he, hok, hfill⟩ := hf.deref_cases hd
  exact assign_evolves hf he rfl ⟨hok.start, hok.pos, by simp⟩ hfill (fun _ => rfl)

theorem split_evolves (hd : f.deref k = .ok bh) (hoff : k < off) (hlen : off < k + bh.length) :
    ∃ f', f.split k off = .ok f' ∧ Evolves rest (fun a b => b = a) f f' ∧
      f'.ob.data.next k = some off := by
  obtain ⟨pre, post, he⟩ := deref_cases hd
  have hshape : Shape (pre ++ (k, bh) :: post) := he ▸ hf.shape
  have hfill := hf.fill he
  obtain ⟨f', id, hrun, hb⟩ :=
    split_spec hf.accounts he hshape.mid_ok hfill.bl_length hoff hlen hshape.le_post
  refine ⟨f', hrun, hf.cut he hoff hlen hb, ?_⟩
  rw [next_split hb.entries]
  rfl

theorem splitBeyond_evolves {limit : ℕ} (hk : k < limit)
    (hrun : f.splitBeyond k limit = .ok f') : Evolves rest (fun a b => b = a) f f' := by
  obtain ⟨bh, hd, hrun⟩ := bind_eq_ok.mp hrun
  obtain ⟨pre, post, he, hok, -⟩ := hf.deref_cases hd
  have hstop : bh.stop = k + bh.length := hok.stop
  split_ifs at hrun with hle
  · cases hrun
    exact Evolves.refl hf (fun _ => rfl)
  · obtain ⟨f1, hrun1, hev, -⟩ := split_evolves hf hd hk (by omega)
    cases hrun.symm.trans hrun1
    exact hev

theorem tryMergeBh_evolves (hd : f.deref k = .ok bh) (htx : bh.state ≠ .tx)
    (hrx : bh.state ≠ .rx) (hdirty : bh.state ≠ .dirty) :
    ∃ f', f.tryMergeBh k = .ok f' ∧ Evolves rest (fun a b => b = a) f f' := by
  obtain ⟨pre, post, he⟩ := deref_cases hd
  obtain ⟨f', l, hrun, hb, hm⟩ := tryMergeBh_spec hf.accounts he (he ▸ hf.shape)
  rw [← he] at hm
  refine ⟨f', hrun, ⟨hb.accounts, ?_, ?_⟩, ?_, hb.frame⟩
  · rw [hb.entries]
    exact hm.shape hf.shape
  · rw [hb.entries]
    exact hm.filled hf.filled
  · intro b
    rw [hb.entries]
    exact hm.cells_eq hf.shape hf.filled htx hrx hdirty b

end

/-! ### Operations that drop heads -/

theorem bhRemove_cases (hf : f.Ok rest) (hrun : f.bhRemove k = .ok f') :
    ∃ pre bh post, f.ob.data.entries = pre ++ (k, bh) :: post ∧
      Becomes rest f (pre ++ post) f' := by
  obtain ⟨bh, hd, -⟩ := bind_eq_ok.mp hrun
  obtain ⟨pre, post, he, hok, -⟩ := hf.deref_cases hd
  obtain ⟨f1, hrun1, hb⟩ := bhRemove_spec hf.accounts he hok.start
  cases hrun.symm.trans hrun1
  exact ⟨pre, bh, post, he, hb⟩

variable {p : Cell → Prop}

theorem bhRemove_evolves (hf : f.Ok rest)
    (hp : ∀ bh, (k, bh) ∈ f.ob.data.entries → ∀ b, p (bh.cell b)) (hrun : f.bhRemove k = .ok f') :
    Evolves rest (Drops p) f f' ∧ ∀ e ∈ f'.ob.data.entries, e ∈ f.ob.data.entries := by
  obtain ⟨pre, bh, post, he, hb⟩ := bhRemove_cases hf hrun
  constructor
  · refine hf.remove he hb Drops.refl ?_
    intro b _ _
    exact .inr ⟨rfl, _, rfl, hp bh (by simp [he]) b⟩
  · intro e hmem
    rw [hb.entries] at hmem
    rw [he]
    rcases mem_append.mp hmem with hmem | hmem
    · simp [hmem]
    · simp [hmem]

theorem eachBh_bhRemove_evolves {ks} (hf : f.Ok rest)
    (hp : ∀ k ∈ ks, ∀ bh, (k, bh) ∈ f.ob.data.entries → ∀ b, p (bh.cell b))
    (hrun : f.eachBh bhRemove ks = .ok f') : Evolves rest (Drops p) f f' := by
  have hall : Evolves rest (Drops p) f f' ∧ ∀ e ∈ f'.ob.data.entries, e ∈ f.ob.data.entries := by
    refine foldlM_invariant (P := fun g => Evolves rest (Drops p) f g ∧
      ∀ e ∈ g.ob.data.entries, e ∈ f.ob.data.entries) hrun ?_
      ⟨Evolves.refl hf Drops.refl, fun _ he => he⟩
    intro k hk g g' hg hstep
    obtain ⟨hev, hsub⟩ := bhRemove_evolves (p := p) hg.1.ok
      (fun bh hmem => hp k hk bh (hg.2 _ hmem)) hstep
    exact ⟨hg.1.trans hev (fun _ _ _ => Drops.trans), fun e he => hg.2 e (hsub e he)⟩
  exact hall.1

theorem clean_of_state (h : bh.state = .clean ∨ bh.state = .zero) (b : ℕ) :
    Cell.Clean (bh.cell b) := by
  rcases h with h | h
  · exact .inr ⟨bh.bl[b - bh.start]?, by simp only [BufferHead.cell, h]⟩
  · exact .inl (by simp only [BufferHead.cell, h])

theorem releaseBhs_evolves (hf : f.Ok rest) (hrun : f.releaseBhs = .ok f') :
    Evolves rest (Drops Cell.Clean) f f' := by
  refine eachBh_bhRemove_evolves hf ?_ hrun
  intro k hk bh hmem b
  obtain ⟨e, he, rfl⟩ := mem_map.mp hk
  obtain ⟨he, hstate⟩ := mem_filter.mp he
  have heq : e.2 = bh := by
    have h1 := find?_of_mem (m := f.ob.data) (k := e.1) (v := e.2) he
    exact Option.some.inj (h1.symm.trans (find?_of_mem hmem))
  rw [decide_eq_true_iff, heq] at hstate
  exact clean_of_state hstate b

theorem truncateLoop_evolves {s : ℕ} (fuel : ℕ) (hf : f.Ok rest)
    (hrun : truncateLoop s fuel f = .ok f') : Evolves rest (Drops fun _ => True) f f' := by
  induction fuel generalizing f with
  | zero =>
    unfold truncateLoop at hrun
    split_ifs at hrun
    cases hrun
    exact Evolves.refl hf Drops.refl
  | succ fuel ih =>
    unfold truncateLoop at hrun
    split at hrun
    · cases hrun
      exact Evolves.refl hf Drops.refl
    · next k _ =>
      obtain ⟨bh, hd, hrun⟩ := bind_eq_ok.mp hrun
      obtain ⟨pre, post, he, hok, -⟩ := hf.deref_cases hd
      have hstart : bh.start = k := hok.start
      have hstop : bh.stop = k + bh.length := hok.stop
      split_ifs at hrun with hend hcut
      · cases hrun
        exact Evolves.refl hf Drops.refl
      · obtain ⟨g, hg, hrun⟩ := bind_eq_ok.mp hrun
        obtain ⟨f1, hrun1, hev, -⟩ := split_evolves hf hd (by omega : k < s) (by omega)
        cases hg.symm.trans hrun1
        exact hev.same_then (ih hev.ok hrun)
      · obtain ⟨-, -, hrun⟩ := bind_eq_ok.mp hrun
        obtain ⟨g, hg, hrun⟩ := bind_eq_ok.mp hrun
        obtain ⟨hev, -⟩ := bhRemove_evolves (p := fun _ => True) hf (fun _ _ _ => trivial) hg
        exact hev.trans (ih hev.ok hrun) (fun _ _ _ => Drops.trans)

theorem next_cases (hf : f.Ok rest) (hd : f.deref k = .ok bh) {k' : ℕ}
    (hnext : f.ob.data.next k = some k') :
    k + bh.length ≤ k' ∧ ∃ bh', (k', bh') ∈ f.ob.data.entries := by
  obtain ⟨pre, post, he⟩ := deref_cases hd
  rw [next_split he] at hnext
  cases post with
  | nil => cases hnext
  | cons e post =>
    cases hnext
    have hshape : Shape (pre ++ (k, bh) :: e :: post) := he ▸ hf.shape
    exact ⟨hshape.le_post e mem_cons_self, e.2, by simp [he]⟩

variable {len : ℕ}

theorem discardLoop_evolves (fuel : ℕ) {p} (hf : f.Ok rest)
    (hp : ∀ k ∈ p, ∀ bh, (k, bh) ∈ f.ob.data.entries → off < k + bh.length)
    (hrun : discardLoop off len fuel f p = .ok f') : Evolves rest (Drops fun _ => True) f f' := by
  induction fuel generalizing f p with
  | zero =>
    unfold discardLoop at hrun
    split_ifs at hrun
    cases hrun
    exact Evolves.refl hf Drops.refl
  | succ fuel ih =>
    cases p with
    | none =>
      cases hrun
      exact Evolves.refl hf Drops.refl
    | some k =>
      obtain ⟨bh, hd, hrun⟩ := bind_eq_ok.mp hrun
      obtain ⟨pre, post, he, hok, -⟩ := hf.deref_cases hd
      have hstart : bh.start = k := hok.start
      have hreach := hp k rfl bh (by simp [he])
      split_ifs at hrun with hend hcut
      · cases hrun
        exact Evolves.refl hf Drops.refl
      · obtain ⟨g, hg, hrun⟩ := bind_eq_ok.mp hrun
        obtain ⟨f1, hrun1, hev, hnext⟩ := split_evolves hf hd (by omega : k < off) hreach
        cases hg.symm.trans hrun1
        refine hev.same_then (ih hev.ok ?_ hrun)
        intro k' hk' bh' hmem
        cases hnext.symm.trans hk'
        have hpos : 0 < bh'.length := (hev.ok.shape.entry _ hmem).pos
        omega
      · obtain ⟨g, hg, hrun⟩ := bind_eq_ok.mp hrun
        have hev := splitBeyond_evolves hf (by omega) hg
        obtain ⟨bh1, hd1, hrun⟩ := bind_eq_ok.mp hrun
        obtain ⟨-, -, hrun⟩ := bind_eq_ok.mp hrun
        obtain ⟨g', hg', hrun⟩ := bind_eq_ok.mp hrun
        obtain ⟨hev', hsub⟩ :=
          bhRemove_evolves (p := fun _ => True) hev.ok (fun _ _ _ => trivial) hg'
        refine hev.same_then (hev'.trans (ih hev'.ok ?_ hrun) (fun _ _ _ => Drops.trans))
        -- the next head starts behind this one, which starts at or behind `off`
        intro k' hk' bh' hmem
        have hle := (next_cases hev.ok hd1 hk').1
        have hpos : 0 < bh'.length := (hev'.ok.shape.entry _ hmem).pos
        omega

theorem dataLowerBound_cases (hf : f.Ok rest) (h : f.dataLowerBound off = some k) :
    ∃ pre bh post, f.ob.data.entries = pre ++ (k, bh) :: post ∧
      (∀ e ∈ pre, e.1 + e.2.length ≤ off) ∧ off < k + bh.length := by
  obtain ⟨pre, post, he, hpre, hpost⟩ :=
    Extents.exists_split hf.shape.ordered (fun e he => (hf.shape.entry e he).pos) off
  rw [dataLowerBound_spec he (he ▸ hf.shape) hpre hpost] at h
  cases post with
  | nil => cases h
  | cons e post =>
    cases h
    exact ⟨pre, e.2, post, he, hpre, hpost e mem_cons_self⟩

theorem discard_evolves (hf : f.Ok rest) (hrun : f.discard off len = .ok f') :
    Evolves rest (Drops fun _ => True) (f.withFlags false true) f' := by
  refine discardLoop_evolves _ (hf.flags false true) ?_ hrun
  intro k hk bh hmem
  obtain ⟨pre, bh', post, he, -, hreach⟩ := dataLowerBound_cases (hf.flags false true) hk
  have hfind := find?_of_mem hmem
  rw [find?_split he] at hfind
  exact Option.some.inj hfind ▸ hreach

end Focus

end CephDokan.ObjectCacher
