import CephDokan.Osdc.ObjectCacher.Bytewise
import CephDokan.Osdc.ObjectCacher.StripedWrite

/-!
# The cache refines the bytewise model

`view` forgets the buffer heads. Each function of the cache keeps the representation
invariant and, seen through `view`, takes steps of the bytewise model.
-/

namespace CephDokan.ObjectCacher

open Fallible Function Object

def OSDWrite.dataOf (wr : OSDWrite) (ex : ObjectExtent) : Bytes :=
  ex.bufferExtents.flatMap fun p => (wr.bl.drop p.1).take p.2

namespace Cacher

/-- The cache byte by byte. An object that is not there is one of which nothing is known. -/
def view (c : Cacher) : View where
  cell := c.cell
  complete key := (c.objects.find? key).elim false complete
  objExists key := (c.objects.find? key).elim true objExists
  held key := (c.objects.find? key).elim 0 fun ob => ob.frame.ref
  reads := c.reads
  writes := c.writes
  lastReadTid := c.lastReadTid
  lastTid := c.lastTid
  calls := c.calls

/-- The cache goes from `c` to `c'` in order, by the steps `ls`. -/
structure Refines (c : Cacher) (ls : List Label) (c' : Cacher) : Prop where
  ok : c'.Ok
  trace : Trace View.Does c.view ls c'.view

variable {c c' c'' : Cacher} {ls ls' : List Label} {l : Label} {key : Soid} {ob : Object}
  {f f' : Focus}

theorem Refines.refl (hc : c.Ok) : Refines c [] c := ⟨hc, Trace.nil _⟩

theorem Refines.trans (h : Refines c ls c') (h' : Refines c' ls' c'') :
    Refines c (ls ++ ls') c'' := ⟨h'.ok, h.trace.append h'.trace⟩

theorem Refines.single (hok : c'.Ok) (h : View.Does l c.view c'.view) : Refines c [l] c' :=
  ⟨hok, Trace.single h⟩

theorem Refines.does (h : Refines c [l] c') : View.Does l c.view c'.view := by
  cases h.trace with
  | cons hdo htail =>
    cases htail
    exact hdo

theorem Refines.unseen (hok : c'.Ok) (h : c'.view = c.view) : Refines c [] c' :=
  ⟨hok, by rw [h]; exact Trace.nil _⟩

theorem Refines.sound (h : Refines c ls c') (hs : c.view.Sound) : c'.view.Sound :=
  h.trace.invariant (fun _ _ _ _ hdo hv => hdo.sound hv) hs

/-- The cache goes from `c` to `c'` in order, by steps of which `P` holds. -/
def Steps (P : Label → Prop) (c c' : Cacher) : Prop := ∃ ls, Refines c ls c' ∧ ∀ l ∈ ls, P l

variable {α : Type}

namespace Steps

variable {P Q : Label → Prop}

theorem unseen (h : Refines c [] c') : Steps P c c' := ⟨[], h, by simp⟩

theorem refl (hc : c.Ok) : Steps P c c := unseen (.refl hc)

theorem single (h : Refines c [l] c') (hl : P l) : Steps P c c' := ⟨[l], h, by simpa using hl⟩

theorem ok (h : Steps P c c') : c'.Ok := by
  obtain ⟨ls, href, -⟩ := h
  exact href.ok

theorem mono (h : Steps P c c') (hPQ : ∀ l, P l → Q l) : Steps Q c c' := by
  obtain ⟨ls, href, hls⟩ := h
  exact ⟨ls, href, fun l hl => hPQ l (hls l hl)⟩

theorem trans (h : Steps P c c') (h' : Steps P c' c'') : Steps P c c'' := by
  obtain ⟨ls, href, hls⟩ := h
  obtain ⟨ls', href', hls'⟩ := h'
  exact ⟨ls ++ ls', href.trans href', List.forall_mem_append.mpr ⟨hls, hls'⟩⟩

theorem foldlM {op : Cacher → α → Run Cacher} {as : List α} (hc : c.Ok)
    (hrun : as.foldlM op c = .ok c') (hop : ∀ a ∈ as, ∀ c c', c.Ok → op c a = .ok c' →
      Steps P c c') :
    Steps P c c' := by
  refine foldlM_invariant (P := fun d => Steps P c d) hrun ?_ (refl hc)
  intro a ha d d' hd hstep
  exact hd.trans (hop a ha d d' hd.ok hstep)

end Steps

section View

section

variable (h : c.objects.find? key = some ob)

include h

theorem view_complete : c.view.complete key = ob.complete := by
  simp [view, h]

theorem view_objExists : c.view.objExists key = ob.objExists := by
  simp [view, h]

theorem view_held : c.view.held key = ob.frame.ref := by
  simp [view, h]

end

theorem view_put (c : Cacher) (key : Soid) (f : Focus) : (c.put key f).view = { c.view with
    cell := update c.view.cell key (cells f.ob.data.entries)
    complete := update c.view.complete key f.ob.complete
    objExists := update c.view.objExists key f.ob.objExists
    held := update c.view.held key f.ob.frame.ref } := by
  have hfind : ∀ key', (c.put key f).objects.find? key' =
      if key' = key then some f.ob else c.objects.find? key' := by
    intro key'
    split_ifs with h
    · rw [h, put_find?_self]
    · exact put_find?_of_ne c f h
  simp only [view, View.mk.injEq]
  refine ⟨?_, ?_, ?_, ?_, rfl, rfl, rfl, rfl, rfl⟩
  all_goals
    funext key'
    by_cases h : key' = key
    · subst h
      simp [hfind, cell_put_self, update_self, funext_iff]
    · simp [hfind, h, cell_put_of_ne, funext_iff]

theorem view_put_flags (hfind : c.objects.find? key = some ob) {complete objExists}
    (hframe : f.ob.frame = (Focus.withFlags ⟨c.books, ob⟩ complete objExists).ob.frame) :
    (c.put key f).view = { c.view with
      cell := update c.view.cell key (cells f.ob.data.entries)
      complete := update c.view.complete key complete
      objExists := update c.view.objExists key objExists } := by
  have hcomplete : f.ob.complete = complete := (congrArg Object.complete hframe :)
  have hexists : f.ob.objExists = objExists := (congrArg Object.objExists hframe :)
  have hheld : f.ob.frame.ref = c.view.held key := by
    have heq := congrArg ref hframe
    exact heq.trans (view_held hfind).symm
  rw [view_put, hcomplete, hexists, hheld]
  simp only [update_eq_self]

theorem view_put_frame (hfind : c.objects.find? key = some ob) (hframe : f.ob.frame = ob.frame) :
    (c.put key f).view =
      { c.view with cell := update c.view.cell key (cells f.ob.data.entries) } := by
  have hput := view_put_flags hfind (show f.ob.frame =
    (Focus.withFlags ⟨c.books, ob⟩ ob.complete ob.objExists).ob.frame from hframe)
  rwa [← view_complete hfind, ← view_objExists hfind, update_eq_self, update_eq_self] at hput

theorem does_of_view (g : ℕ → Option Cell) (hready : c.view.Ready l)
    (hcells : ∀ b, c.view.Local b l (c.view.cell l.key b) (g b))
    (hview : c'.view = { c.view.moved l with cell := update c.view.cell l.key g }) :
    View.Does l c.view c'.view := by
  have hcell : c'.view.cell = update c.view.cell l.key g := congrArg View.cell hview
  refine ⟨hready, ?_, ?_, ?_⟩
  · intro b
    rw [hcell, update_self]
    exact hcells b
  · intro key hkey
    rw [hcell, update_of_ne hkey]
  · rw [hcell]
    exact hview

theorem does_of_find (hfind : c.objects.find? l.key = some ob) (g : ℕ → Option Cell)
    (hready : c.view.Ready l) (hcells : ∀ b, c.view.Local b l (cells ob.data.entries b) (g b))
    (hview : c'.view = { c.view.moved l with cell := update c.view.cell l.key g }) :
    View.Does l c.view c'.view := by
  refine does_of_view g hready (fun b => ?_) hview
  rw [show c.view.cell l.key b = cells ob.data.entries b from cell_of_find? hfind b]
  exact hcells b

theorem Ok.at (hc : c.Ok) (hfind : c.objects.find? key = some ob) :
    ∃ rest, Focus.Ok rest ⟨c.books, ob⟩ ∧
      ∀ f, f.Ok rest → f.ob.oid = ob.oid → (c.put key f).Ok := by
  obtain ⟨pre, post, he⟩ := SortedMap.exists_split_of_find? hfind
  exact ⟨_, hc.focus he, fun f hf hoid => hc.put he hf hoid⟩

theorem Ok.others (hc : c.Ok) (hbooks : c'.books = c.books) (hobjects : c'.objects = c.objects) :
    c'.Ok := by
  refine ⟨?_, ?_, ?_⟩
  · rw [hbooks, hobjects]
    exact hc.books
  · rw [hobjects]
    exact hc.object
  · rw [hobjects]
    exact hc.named

end View

/-! ### Single steps on one object -/

section OneObject

variable {R : CellRel}

theorem focus_cases {op} {x : α} (h : (c.focus key >>= op) = .ok x) :
    ∃ ob, c.objects.find? key = some ob ∧ op ⟨c.books, ob⟩ = .ok x := by
  obtain ⟨f, hf, h⟩ := bind_eq_ok.mp h
  unfold focus at hf
  split at hf
  · next ob hob =>
    cases hf
    exact ⟨ob, hob, h⟩
  · cases hf

section

variable {op : Focus → Run Focus} (hc : c.Ok) (hrun : c.atObject key op = .ok c')

include hc hrun

theorem atObject_unseen
    (hop : ∀ rest ob f', c.objects.find? key = some ob → Focus.Ok rest ⟨c.books, ob⟩ →
      op ⟨c.books, ob⟩ = .ok f' → f'.Ok rest ∧ f'.ob.oid = ob.oid ∧ f'.ob.complete = ob.complete ∧
        f'.ob.objExists = ob.objExists ∧ f'.ob.frame.ref = ob.frame.ref ∧ ∀ b,
          cells f'.ob.data.entries b = cells ob.data.entries b) :
    Refines c [] c' := by
  obtain ⟨ob, f', hfind, hf', rfl⟩ := atObject_cases hrun
  obtain ⟨rest, hf, hput⟩ := hc.at hfind
  obtain ⟨hok, hoid, hcomplete, hexists, hheld, hcells⟩ := hop rest ob f' hfind hf hf'
  refine Refines.unseen (hput f' hok hoid) ?_
  have hcell : cells f'.ob.data.entries = c.view.cell key := by
    funext b
    exact (hcells b).trans (cell_of_find? hfind b).symm
  rw [view_put, hcell, hcomplete.trans (view_complete hfind).symm,
    hexists.trans (view_objExists hfind).symm, hheld.trans (view_held hfind).symm]
  simp only [update_eq_self]

theorem atObject_same
    (hop : ∀ rest ob f', c.objects.find? key = some ob → Focus.Ok rest ⟨c.books, ob⟩ →
      op ⟨c.books, ob⟩ = .ok f' → Focus.Evolves rest (fun a b => b = a) ⟨c.books, ob⟩ f') :
    Refines c [] c' := by
  refine atObject_unseen hc hrun ?_
  intro rest ob f' hfind hf hf'
  have hev := hop rest ob f' hfind hf hf'
  have hexists := congrArg objExists hev.frame
  have hheld := congrArg ref hev.frame
  exact ⟨hev.ok, hev.oid, hev.complete, hexists, hheld, hev.cells⟩

end

theorem Refines.evolves_flags {rest} {complete objExists}
    (hfind : c.objects.find? key = some ob) (hok : (c.put key f).Ok)
    (hev : Focus.Evolves rest R (Focus.withFlags ⟨c.books, ob⟩ complete objExists) f)
    (hkey : l.key = key) (hready : c.view.Ready l) (hmoved : c.view.moved l = { c.view with
      complete := update c.view.complete key complete
      objExists := update c.view.objExists key objExists })
    (hR : ∀ b a a', R a a' → c.view.Local b l a a') : Refines c [l] (c.put key f) := by
  subst hkey
  refine Refines.single hok (does_of_find hfind (cells f.ob.data.entries) hready ?_ ?_)
  · exact fun b => hR b _ _ (hev.cells b)
  · rw [hmoved]
    exact view_put_flags hfind hev.frame

theorem Refines.evolves {rest} (hfind : c.objects.find? key = some ob) (hok : (c.put key f).Ok)
    (hev : Focus.Evolves rest R ⟨c.books, ob⟩ f) (hkey : l.key = key) (hready : c.view.Ready l)
    (hmoved : c.view.moved l = c.view) (hR : ∀ b a a', R a a' → c.view.Local b l a a') :
    Refines c [l] (c.put key f) := by
  have hev' : Focus.Evolves rest R (Focus.withFlags ⟨c.books, ob⟩ ob.complete ob.objExists) f := hev
  refine evolves_flags hfind hok hev' hkey hready ?_ hR
  rw [hmoved, ← view_complete hfind, ← view_objExists hfind, update_eq_self, update_eq_self]

theorem objectFor_flags (c : Cacher) (key : Soid) (oid : String) (objectNo : ℕ) (oset : ObjectSet)
    (truncateSize : ℕ) :
    (c.objectFor key oid objectNo oset truncateSize).complete = c.view.complete key ∧
    (c.objectFor key oid objectNo oset truncateSize).objExists = c.view.objExists key ∧
    (c.objectFor key oid objectNo oset truncateSize).frame.ref = c.view.held key := by
  cases hfind : c.objects.find? key with
  | none => simp [objectFor, view, hfind, frame]
  | some ob => simp [objectFor, view, hfind, frame]

theorem getObject_refines (hc : c.Ok) {oid} (hname : oid = Soid.name key) (objectNo : ℕ)
    (oset : ObjectSet) (truncateSize : ℕ) :
    Refines c [] (c.getObject key oid objectNo oset truncateSize) := by
  refine Refines.unseen (hc.getObject objectNo oset truncateSize hname) ?_
  have hcell : cells (c.objectFor key oid objectNo oset truncateSize).data.entries =
      c.view.cell key := by
    funext b
    exact objectFor_cells c key oid objectNo oset truncateSize b
  obtain ⟨hcomplete, hexists, hheld⟩ := objectFor_flags c key oid objectNo oset truncateSize
  rw [getObject, view_put, hcell, hcomplete, hexists, hheld]
  simp only [update_eq_self]

section

variable {k : ℕ} {bh : BufferHead} {pre post : List Entry} (hc : c.Ok)
  (hfind : c.objects.find? key = some ob) (he : ob.data.entries = pre ++ (k, bh) :: post)

include hc hfind he

theorem bhRead_spec (hwait : bh.Waiting) :
    ∃ c' ob', c.bhRead key k = .ok c' ∧ Refines c [.request key k bh.length] c' ∧
      c'.objects.find? key = some ob' ∧ ob'.data.entries =
        pre ++ (k, { bh.withState .rx with lastReadTid := c.lastReadTid + 1 }) :: post ∧
      (∀ key', key' ≠ key → c'.objects.find? key' = c.objects.find? key') ∧
      c'.mayCopyOnWrite = c.mayCopyOnWrite := by
  obtain ⟨rest, hf, hput⟩ := hc.at hfind
  have hok := hf.entry he
  have hstart : bh.start = k := hok.start
  have hempty := hwait.bl_eq_nil (hf.fill he)
  obtain ⟨f', hreq, hf', hframe, hent, hcells⟩ :=
    Focus.requestBh_spec hf he hempty (c.lastReadTid + 1)
  have hoid := congrArg oid hframe
  rw [bhRead, focus_eq hfind, ok_bind, Focus.deref_eq he, ok_bind]
  dsimp only
  rw [hreq, ok_bind]
  refine ⟨_, f'.ob, rfl, Refines.single ((hput f' hf' hoid).others rfl rfl)
    (does_of_find hfind (cells f'.ob.data.entries) trivial ?_ ?_), put_find?_self c key f', hent,
    fun key' hne => put_find?_of_ne c f' hne, rfl⟩
  · intro b
    rw [hcells]
    simp only [View.Local]
    split_ifs with hin
    · refine ⟨⟨bh.cell b, ?_, hwait.cell b⟩, rfl⟩
      rw [he]
      exact cells_mid (he ▸ hf.shape) hin.1 hin.2
    · rfl
  · simp only [hstart]
    exact congrArg (fun v : View => ({ v with
      lastReadTid := c.lastReadTid + 1
      reads := c.reads ++ [c.view.newRead key k bh.length]
      calls := c.calls ++ [.read (c.view.newRead key k bh.length)] } : View))
      (view_put_frame hfind hframe)

theorem bhWrite_spec (hdirty : bh.state = .dirty) :
    ∃ c' ob', c.bhWrite key k = .ok c' ∧ Refines c [.send key k bh.bl bh.snapc] c' ∧
      c'.objects.find? key = some ob' ∧ ob'.data.entries =
        pre ++ (k, { bh.withState .tx with lastWriteTid := c.lastTid + 1 }) :: post := by
  obtain ⟨rest, hf, hput⟩ := hc.at hfind
  have hok := hf.entry he
  have hstart : bh.start = k := hok.start
  have hlen : bh.bl.length = bh.length := by
    simpa [BufferHead.Filled, hdirty] using hf.fill he
  obtain ⟨f', hsend, hf', hframe, hent, hcells⟩ := Focus.sendBh_spec hf he hdirty (c.lastTid + 1)
  have hoid := congrArg oid hframe
  have hcomplete : f'.ob.complete = c.view.complete key := by
    have heq := congrArg complete hframe
    exact heq.trans (view_complete hfind).symm
  have hexists : f'.ob.objExists = c.view.objExists key := by
    have heq := congrArg objExists hframe
    exact heq.trans (view_objExists hfind).symm
  have hheld : f'.ob.frame.ref = c.view.held key + 1 := by
    have heq := congrArg ref hframe
    rw [view_held hfind]
    exact heq
  rw [bhWrite, focus_eq hfind, ok_bind, Focus.deref_eq he, ok_bind]
  dsimp only
  rw [hsend, ok_bind]
  refine ⟨_, f'.ob, rfl, Refines.single ((hput f' hf' hoid).others rfl rfl)
    (does_of_find hfind (cells f'.ob.data.entries) trivial ?_ ?_), put_find?_self c key f', hent⟩
  · intro b
    rw [hcells]
    simp only [View.Local, hlen]
    split_ifs with hin
    · refine ⟨?_, rfl⟩
      rw [he, cells_mid (he ▸ hf.shape) hin.1 hin.2]
      simp only [BufferHead.cell, hdirty, hstart]
    · rfl
  · have hput := view_put c key f'
    rw [hcomplete, hexists, hheld, update_eq_self, update_eq_self] at hput
    simp only [hstart, ← hlen]
    exact congrArg (fun v : View => ({ v with
      lastTid := c.lastTid + 1
      writes := c.writes ++ [c.view.newWrite key k bh.bl bh.snapc]
      calls := c.calls ++ [.write (c.view.newWrite key k bh.bl bh.snapc)] } : View)) hput

end

end OneObject

/-! ### Writes -/

section Writes

variable {wr : OSDWrite} {ex : ObjectExtent} {oset : ObjectSet} {now : ℕ}

/-- The step that writes the extent `ex`. -/
def writeLabel (wr : OSDWrite) (ex : ObjectExtent) : Label :=
  .write (writeKey ex) ex.offset (wr.dataOf ex) wr.snapc

section

variable (hc : c.Ok) (hwr : wr.Ok)

include hc hwr

theorem writeObject_refines (hmem : ex ∈ wr.extents)
    (hrun : c.writeObject oset wr now ex = .ok c') :
    Refines c [writeLabel wr ex] c' := by
  rcases hwr.fragments hmem with ⟨first, hfrag⟩ | hfrags
  swap
  · rw [writeObject_several oset now hc hwr hmem hfrags] at hrun
    cases hrun
  obtain ⟨rest, f, l, l', hrun', hok, hf, hshape, hfill, hmerge, hcells⟩ :=
    writeObject_spec oset now hc hwr hmem hfrag
  cases hrun.symm.trans hrun'
  have hin : first + ex.length ≤ wr.bl.length :=
    (hwr.inside ex hmem (first, ex.length) (by simp [hfrag])).2
  have hdata : wr.dataOf ex = (wr.bl.drop first).take ex.length := by
    simp [OSDWrite.dataOf, hfrag]
  have hlen : (wr.dataOf ex).length = ex.length := by
    rw [hdata, List.length_take, List.length_drop]
    omega
  have hget : ∀ b, ex.offset ≤ b ∧ b < ex.offset + ex.length →
      wr.bl[first + (b - ex.offset)]? = (wr.dataOf ex)[b - ex.offset]? := by
    intro b hb
    rw [hdata, List.getElem?_take_of_lt (by omega), List.getElem?_drop]
  have hcells' : ∀ b, cells l b = if ex.offset ≤ b ∧ b < ex.offset + ex.length then
      some (.dirty (wr.dataOf ex)[b - ex.offset]? wr.snapc) else c.view.cell (writeKey ex) b := by
    intro b
    rw [hcells b]
    split_ifs with hb
    · rw [hget b hb]
    · rfl
  have hforget : ∀ b, (cells l' b).map Cell.forget = (cells l b).map Cell.forget :=
    hmerge.cells_forget hshape hfill (by decide) (by decide)
  refine Refines.single hok (does_of_view (cells f.ob.data.entries) trivial ?_ ?_)
  · intro b
    simp only [writeLabel, View.Local, Label.key, hlen, hf.entries]
    refine ⟨?_, ?_, ?_⟩
    · intro hb
      have heq := hforget b
      rw [hcells', if_pos hb] at heq
      exact dirty_of_forget heq
    · intro hb
      rw [hforget, hcells', if_neg hb]
    · intro hseam
      rw [hmerge.cells_eq_of_seam hshape hfill (by decide) (by decide) ?_ b, hcells']
      intro _ a ha x t y u hat hat'
      rw [hcells'] at hat hat'
      -- one of the two bytes is inside the extent, the other one just outside
      rcases ha with ha | ha
      · rw [if_neg (by omega)] at hat
        rw [if_pos (by have := hwr.pos ex hmem; omega)] at hat'
        cases hat'
        exact hseam.1 a x t ha hat
      · rw [if_pos (by have := hwr.pos ex hmem; omega)] at hat
        rw [if_neg (by omega), ha] at hat'
        cases hat
        exact (hseam.2 y u hat').symm
  · obtain ⟨hcomplete, hexists, hheld⟩ := objectFor_flags c (writeKey ex) ex.oid ex.objectno oset
      ex.truncateSize
    have hcomplete' : f.ob.complete = c.view.complete (writeKey ex) := by
      have heq := congrArg complete hf.frame
      exact heq.trans hcomplete
    have hexists' : f.ob.objExists = c.view.objExists (writeKey ex) := by
      have heq := congrArg objExists hf.frame
      exact heq.trans hexists
    have hheld' : f.ob.frame.ref = c.view.held (writeKey ex) := by
      have heq := congrArg ref hf.frame
      exact heq.trans hheld
    rw [view_put, hcomplete', hexists', hheld']
    simp only [update_eq_self]
    rfl

theorem writexLoop_refines {exs} (hsub : ∀ ex ∈ exs, ex ∈ wr.extents)
    (hrun : c.writexLoop oset wr now exs = .ok c') : Refines c (exs.map (writeLabel wr)) c' := by
  induction exs generalizing c with
  | nil =>
    cases hrun
    exact Refines.refl hc
  | cons ex exs ih =>
    obtain ⟨c1, hstep, hrun⟩ := bind_eq_ok.mp hrun
    have hone := writeObject_refines hc hwr (hsub ex List.mem_cons_self) hstep
    exact hone.trans (ih hone.ok (fun e he => hsub e (List.mem_cons_of_mem _ he)) hrun)

theorem writex_refines (hrun : c.writex oset wr now = .ok c') :
    Refines c (wr.extents.map (writeLabel wr)) c' :=
  writexLoop_refines hc hwr (fun _ he => he) hrun

theorem writex_invariant {P : View → Prop} (hrun : c.writex oset wr now = .ok c')
    (hwrite : ∀ key off data snapc v v', View.Does (.write key off data snapc) v v' → P v → P v')
    (h : P c.view) : P c'.view := by
  refine (writex_refines hc hwr hrun).trace.invariant ?_ h
  intro l hl v v' hdo hv
  obtain ⟨ex, -, rfl⟩ := List.mem_map.mp hl
  exact hwrite _ _ _ _ v v' hdo hv

end

end Writes

end Cacher

end CephDokan.ObjectCacher
