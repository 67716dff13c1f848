import CephDokan.Osdc.ObjectCacher.Flush
import CephDokan.Osdc.ObjectCacher.Refinement

/-!
# The operations of the cache refine the bytewise model

Replies, commits, and the operations that drop what is cached.
-/

namespace CephDokan.ObjectCacher.Cacher

open Fallible List SortedMap Focus Refines

variable {c c' : Cacher} {ls : List Label} {key : Soid} {ob : Object} {f f' : Focus} {r : ℤ}

theorem bhReadFinish_refines {rd} {bl} (hc : c.Ok) (hrd : rd ∈ c.reads)
    (hrun : c.bhReadFinish rd bl r = .ok c') : ∃ absent, Refines c [.reply rd r absent] c' := by
  obtain ⟨c1, hcached, hrun⟩ := bind_eq_ok.mp hrun
  cases hrun
  unfold ifCached at hcached
  split_ifs at hcached with hin
  · obtain ⟨ob, f', hfind, hop, rfl⟩ := atObject_cases hcached
    obtain ⟨rest, hf, hput⟩ := hc.at hfind
    have hev := readFinish_evolves hf hop
    by_cases habs : r = enoent ∧ rd.trustEnoent = true ∧ ob.complete = false
    · rw [if_pos habs] at hev
      have hready : c.view.Ready (.reply rd r true) :=
        ⟨hrd, fun _ => ⟨habs.1, habs.2.1, (view_complete hfind).trans habs.2.2⟩⟩
      refine ⟨true, single ((hput f' hev.ok hev.oid).others rfl rfl)
        (does_of_find hfind (cells f'.ob.data.entries) hready ?_ ?_)⟩
      · exact fun b => (hev.cells b).mono fun _ => rfl
      · exact congrArg (fun v : View => { v with
          reads := c.reads.filter fun rd' => rd'.tid ≠ rd.tid }) (view_put_flags hfind hev.frame)
    · rw [if_neg habs] at hev
      have hready : c.view.Ready (.reply rd r false) := ⟨hrd, fun h => by cases h⟩
      refine ⟨false, single ((hput f' hev.ok hev.oid).others rfl rfl)
        (does_of_find hfind (cells f'.ob.data.entries) hready ?_ ?_)⟩
      · exact fun b => (hev.cells b).mono fun h => absurd h habs
      · exact congrArg (fun v : View => { v with
          reads := c.reads.filter fun rd' => rd'.tid ≠ rd.tid }) (view_put_frame hfind hev.frame)
  · -- the object has been closed: nobody waits any more
    cases hcached
    have hready : c.view.Ready (.reply rd r false) := ⟨hrd, fun h => by cases h⟩
    refine ⟨false, single (hc.others rfl rfl)
      (does_of_view (c.view.cell rd.key) hready (fun b => .keep _) ?_)⟩
    rw [Label.key, Function.update_eq_self]
    rfl

theorem bhWriteCommit_refines {w} (hc : c.Ok) (hs : c.view.Sound) (hw : w ∈ c.writes)
    (hrun : c.bhWriteCommit w r = .ok c') : ∃ copied, Refines c [.commit w r copied] c' := by
  obtain ⟨c1, hcached, hrun⟩ := bind_eq_ok.mp hrun
  cases hrun
  have hpos : 0 < c.view.held w.key := by
    rw [hs.held]
    exact countP_pos_iff.mpr ⟨w, hw, by simp⟩
  unfold ifCached at hcached
  split_ifs at hcached with hin
  · obtain ⟨ob, f', hfind, hop, rfl⟩ := atObject_cases hcached
    obtain ⟨rest, hf, hput⟩ := hc.at hfind
    obtain ⟨hok, hcells, hoid, hexists, hcomplete, href⟩ :=
      writeCommit_evolves hf (view_held hfind ▸ hpos) hop
    refine ⟨c.mayCopyOnWrite ob.oid w.start w.length (ofLex (ofLex w.key).2).2,
      single ((hput f' hok hoid).others rfl rfl)
        (does_of_find hfind (cells f'.ob.data.entries) hw hcells ?_)⟩
    have hview := view_put c w.key f'
    have hheld : f'.ob.frame.ref = c.view.held w.key - 1 := by
      rw [view_held hfind]
      simp only at href
      omega
    rw [hcomplete, hexists, hheld] at hview
    simp only [← view_complete hfind, ← view_objExists hfind] at hview
    exact congrArg (fun v : View => { v with
      writes := c.writes.filter fun w' => w'.tid ≠ w.tid }) hview
  · -- an object with writes in flight is not closed
    have hnone : c.objects.find? w.key = none := by
      cases hfind : c.objects.find? w.key with
      | none => rfl
      | some ob => exact absurd (contains_iff.mpr ⟨ob, mem_of_find? hfind⟩) hin
    simp [view, hnone] at hpos

/-! ### Dropping what is cached -/

variable {k : ℕ}

theorem trimBh_refines (hc : c.Ok) (hrun : c.trimBh key k = .ok c') :
    Steps (· = .trim key) c c' := by
  obtain ⟨ob, f', hfind, hop, rfl⟩ := atObject_cases hrun
  obtain ⟨rest, hf, hput⟩ := hc.at hfind
  rcases trimBh_evolves hf hop with rfl | hev
  · refine .unseen (unseen (hput _ hf rfl) ?_)
    have hcell : cells ob.data.entries = c.view.cell key := by
      funext b
      exact (cell_of_find? hfind b).symm
    rw [view_put_frame hfind rfl, hcell, Function.update_eq_self]
  · refine .single (l := .trim key) (evolves_flags hfind (hput f' hev.ok hev.oid) hev rfl trivial ?_
      fun _ _ _ h => h) rfl
    rw [← view_objExists hfind, Function.update_eq_self]
    rfl

theorem closeObject_does (hc : c.Ok) (hfind : c.objects.find? key = some ob)
    (hrun : c.closeObject key ob = .ok c') : c'.Ok ∧ View.Does (.close key) c.view c'.view := by
  obtain ⟨u, href, hrun⟩ := bind_eq_ok.mp hrun
  obtain ⟨u', hdata, hrun⟩ := bind_eq_ok.mp hrun
  obtain ⟨-, -, hrun⟩ := bind_eq_ok.mp hrun
  obtain ⟨-, -, hrun⟩ := bind_eq_ok.mp hrun
  cases hrun
  have href := assertThat_eq_ok.mp href
  have hempty := assertThat_eq_ok.mp hdata
  have hnone : c.view.cell key = fun _ => none := by
    funext b
    rw [show c.view.cell key b = cells ob.data.entries b from cell_of_find? hfind b, hempty]
    rfl
  have hheld : c.view.held key = 0 := by
    rw [view_held hfind]
    simp [Object.frame, hempty, href]
  refine ⟨hc.erase hfind hempty, does_of_view (c.view.cell key) trivial (fun _ => rfl) ?_⟩
  simp only [Label.key, Function.update_eq_self, View.moved]
  simp only [view, View.mk.injEq, find?_erase, and_true]
  refine ⟨?_, ?_, ?_, ?_⟩
  all_goals
    funext key'
    by_cases h : key' = key
  · subst h
    rw [← show c.view.cell key' = c.cell key' from rfl, hnone]
    funext b
    simp [cell, find?_erase]
  · funext b
    simp [cell, find?_erase, h]
  · simp [h]
  · simp [h]
  · simp [h]
  · simp [h]
  · subst h
    simpa [view] using hheld.symm
  · simp [h]

theorem trimObject_refines (hc : c.Ok) (hrun : c.trimObject key = .ok c') :
    Steps (· = .close key) c c' := by
  obtain ⟨ob, hfind, hrun⟩ := focus_cases hrun
  split_ifs at hrun
  · obtain ⟨hok, hdoes⟩ := closeObject_does hc hfind hrun
    exact .single (single hok hdoes) rfl
  · cases hrun
    exact .refl hc

theorem release_refines (hc : c.Ok) (hrun : c.release key = .ok c') :
    Steps (fun l => l = .release key ∨ l = .close key) c c' := by
  obtain ⟨c1, hdrop, hrun⟩ := bind_eq_ok.mp hrun
  obtain ⟨ob, f1, hfind, hop, rfl⟩ := atObject_cases hdrop
  obtain ⟨rest, hfo, hput⟩ := hc.at hfind
  have hev := releaseBhs_evolves hfo hop
  obtain ⟨ob1, hfind1, hrun⟩ := focus_cases hrun
  cases (put_find?_self c key f1).symm.trans hfind1
  -- the object as it is when the flags are cleared as well
  have hflags := hev.flags false true
  have href : Refines c [.release key] (c.put key (f1.withFlags false true)) :=
    evolves_flags hfind (hput _ hflags.ok hflags.oid) hflags rfl trivial rfl fun _ _ _ h => h
  unfold releaseEnd at hrun
  split_ifs at hrun
  · obtain ⟨hok', hclose⟩ := closeObject_does (hput f1 hev.ok hev.oid) hfind1 hrun
    refine .trans (.single href (.inl rfl)) (.single (single hok' ?_) (.inr rfl))
    have hv := view_put_flags hfind hflags.frame
    have hv1 := view_put_frame hfind hev.frame
    refine ⟨trivial, ?_, ?_, ?_⟩
    · intro b
      have hhere := hclose.here b
      rw [hv1] at hhere
      rw [hv]
      exact hhere
    · intro key' hkey
      have helse := hclose.elsewhere key' hkey
      rw [hv1] at helse
      rw [hv]
      exact helse
    · have hframe := hclose.frame
      rw [hv1] at hframe
      rw [hv]
      simpa [View.moved] using hframe
  · cases hrun
    rw [put_put]
    exact .single href (.inl rfl)

theorem purge_refines (hc : c.Ok) (hrun : c.purge key = .ok c') : Refines c [.purge key] c' := by
  obtain ⟨ob, f', hfind, hop, rfl⟩ := atObject_cases hrun
  obtain ⟨rest, hf, hput⟩ := hc.at hfind
  have hev := truncateLoop_evolves _ hf hop
  exact evolves hfind (hput f' hev.ok hev.oid) hev rfl trivial rfl (fun _ _ _ h => h)

variable {oset : ObjectSet} {ex : ObjectExtent}

theorem discardExtent_refines (hc : c.Ok) (hrun : c.discardExtent oset ex = .ok c') :
    Steps (· = .discard (soid oset.poolid ex.oid cephNosnap)) c c' := by
  unfold discardExtent ifCached at hrun
  generalize soid oset.poolid ex.oid cephNosnap = key at hrun ⊢
  split_ifs at hrun
  · obtain ⟨ob, f', hfind, hop, rfl⟩ := atObject_cases hrun
    obtain ⟨rest, hf, hput⟩ := hc.at hfind
    have hev := discard_evolves hf hop
    exact .single (l := .discard key) (evolves_flags hfind (hput f' hev.ok hev.oid) hev rfl trivial
      rfl fun _ _ _ h => h) rfl
  · cases hrun
    exact .refl hc

theorem clearObject_refines (hc : c.Ok) (hrun : c.clearObject key = .ok c') :
    Refines c [.clear key] c' := by
  obtain ⟨ob, hfind, hrun⟩ := focus_cases hrun
  cases hrun
  obtain ⟨rest, hfo, hput⟩ := hc.at hfind
  have hob : (if ob.objExists = true then ob else { ob with
      objExists := true
      complete := false }) =
      (Focus.withFlags ⟨c.books, ob⟩ (ob.complete && ob.objExists) true).ob := by
    obtain ⟨_, _, _, _, _, complete, objExists, _, _, _, _, _, _⟩ := ob
    cases objExists <;> simp [Focus.withFlags]
  simp only [hob]
  have hflags := hfo.flags (ob.complete && ob.objExists) true
  refine single ((hput _ hflags rfl).others rfl rfl)
    (does_of_find hfind (cells ob.data.entries) trivial (fun _ => rfl) ?_)
  have hview := view_put_flags (f := Focus.withFlags ⟨c.books, ob⟩
    (ob.complete && ob.objExists) true) hfind rfl
  have hview := congrArg (fun v : View => ({ v with
    reads := c.reads.map fun rd =>
      if rd.key = key ∧ rd.onList then { rd with trustEnoent := false } else rd } : View)) hview
  simp only [View.moved, view_complete hfind, view_objExists hfind]
  exact hview

/-! ### Loops over objects -/

theorem release_all_refines {keys : List Soid} (hc : c.Ok) (hrun : keys.foldlM release c = .ok c') :
    Steps (fun l => ∃ key, l = .release key ∨ l = .close key) c c' :=
  .foldlM hc hrun fun key _ _ _ hc hstep =>
    (release_refines hc hstep).mono fun _ hl => ⟨key, hl⟩

theorem discardSet_refines {exls} (hc : c.Ok)
    (hrun : c.discardSet oset exls = .ok c') : Steps (fun l => ∃ key, l = .discard key) c c' := by
  unfold discardSet at hrun
  split_ifs at hrun
  · cases hrun
    exact .refl hc
  · exact .foldlM hc hrun fun ex _ _ _ hc hstep =>
      (discardExtent_refines hc hstep).mono fun _ hl => ⟨_, hl⟩

theorem clearNonexistence_refines (hc : c.Ok) (hrun : c.clearNonexistence oset = .ok c') :
    Steps (fun l => ∃ key, l = .clear key) c c' :=
  .foldlM hc hrun fun key _ _ _ hc hstep => .single (clearObject_refines hc hstep) ⟨key, rfl⟩

theorem purge_all_refines (keys : List Soid) (hc : c.Ok) (hrun : keys.foldlM purge c = .ok c') :
    Refines c (keys.map .purge) c' := by
  induction keys generalizing c with
  | nil =>
    cases hrun
    exact refl hc
  | cons key keys ih =>
    obtain ⟨c1, hstep, hrun⟩ := bind_eq_ok.mp hrun
    have hone := purge_refines hc hstep
    exact hone.trans (ih hone.ok hrun)

theorem purgeSet_refines (hc : c.Ok) (hrun : c.purgeSet oset = .ok c') :
    Refines c ((c.objectsOf oset).map .purge) c' := by
  obtain ⟨c1, hfold, hrun⟩ := bind_eq_ok.mp hrun
  obtain ⟨-, -, hrun⟩ := bind_eq_ok.mp hrun
  cases hrun
  exact purge_all_refines _ hc hfold

/-! ### Flushing -/

theorem bhWrite_others {key'} (hrun : c.bhWrite key k = .ok c') (h : key' ≠ key) :
    c'.objects.find? key' = c.objects.find? key' := by
  obtain ⟨f, -, hrun⟩ := bind_eq_ok.mp hrun
  obtain ⟨bh, -, hrun⟩ := bind_eq_ok.mp hrun
  obtain ⟨f', -, hrun⟩ := bind_eq_ok.mp hrun
  cases hrun
  exact put_find?_of_ne c f' h

structure SendsDirty (c : Cacher) (key : Soid) (k : ℕ) (c' : Cacher) : Prop where
  head : ∃ ob bh, c.objects.find? key = some ob ∧ (k, bh) ∈ ob.data.entries ∧ bh.state = .dirty
  run : c.bhWrite key k = .ok c'

theorem SendsDirty.refines (h : c.SendsDirty key k c') (hc : c.Ok) : Steps Label.Sends c c' := by
  obtain ⟨ob, bh, hfind, hmem, hdirty⟩ := h.head
  obtain ⟨pre, post, he⟩ := append_of_mem hmem
  obtain ⟨_, -, hrun, href, -⟩ := bhWrite_spec hc hfind he hdirty
  cases h.run.symm.trans hrun
  exact .single href trivial

theorem waitObject_refines {ctx : ℕ} (hc : c.Ok) (hrun : c.waitObject ctx key = .ok c') :
    Refines c [] c' := by
  refine atObject_unseen hc hrun ?_
  intro rest ob f' _ hf hf'
  cases hf'
  exact ⟨⟨⟨hf.accounts.books, hf.accounts.dirty, hf.accounts.held⟩, hf.shape, hf.filled⟩, rfl, rfl,
    rfl, rfl, fun _ => rfl⟩

section Keeps

variable {P : Cacher → Prop} (hok : ∀ c, P c → c.Ok)
  (hsend : ∀ c c' key k, c.SendsDirty key k c' → P c → P c')
  (hwait : ∀ c c' ctx key, c.waitObject ctx key = .ok c' → P c → P c')

include hsend

theorem flushBh_keeps {k cutoff : ℕ} (hrun : c.flushBh key k cutoff = .ok c') (hc : P c) :
    P c' := by
  obtain ⟨ob, hfind, hrun⟩ := focus_cases hrun
  obtain ⟨bh, hd, hrun⟩ := bind_eq_ok.mp hrun
  obtain ⟨pre, post, he⟩ := deref_cases hd
  split_ifs at hrun with hcond
  · have hdirty : bh.state = .dirty := by
      have hlru := hcond.1
      unfold BufferHead.lru at hlru
      split_ifs at hlru with hdirty
      exact hdirty
    exact hsend _ _ _ _ ⟨⟨ob, bh, hfind, by simp only at he; simp [he], hdirty⟩, hrun⟩ hc
  · cases hrun
    exact hc

theorem flushLoop_keeps {offset length : ℕ} (fuel : ℕ) {p} {clean clean'}
    (hrun : flushLoop key offset length fuel c p clean = .ok (c', clean')) (hc : P c) : P c' := by
  induction fuel generalizing c p clean with
  | zero =>
    unfold flushLoop at hrun
    split_ifs at hrun
    cases hrun
    exact hc
  | succ fuel ih =>
    cases p with
    | none =>
      cases hrun
      exact hc
    | some k =>
      obtain ⟨ob, hfind, hrun⟩ := focus_cases hrun
      obtain ⟨bh, hd, hrun⟩ := bind_eq_ok.mp hrun
      obtain ⟨pre, post, he⟩ := deref_cases hd
      split_ifs at hrun with hend htx hdirty
      · cases hrun
        exact hc
      · exact ih hrun hc
      · exact ih hrun hc
      · obtain ⟨c1, hstep, hrun⟩ := bind_eq_ok.mp hrun
        have hhead : (k, bh) ∈ ob.data.entries := by simp only at he; simp [he]
        exact ih hrun (hsend _ _ _ _ ⟨⟨ob, bh, hfind, hhead, not_not.mp hdirty⟩, hstep⟩ hc)

variable {oset : ObjectSet} {ctx : ℕ}

include hwait in
theorem flushExtent_keeps (hrun : flushExtent oset ctx c ex = .ok c') (hc : P c) : P c' := by
  unfold flushExtent at hrun
  simp only at hrun
  split_ifs at hrun
  · obtain ⟨⟨c1, clean⟩, hflush, hrun⟩ := bind_eq_ok.mp hrun
    obtain ⟨f, -, hflush⟩ := bind_eq_ok.mp hflush
    have hc1 := flushLoop_keeps hsend _ hflush hc
    split_ifs at hrun
    · cases hrun
      exact hc1
    · exact hwait _ _ _ _ hrun hc1
  · cases hrun
    exact hc

include hwait in
theorem flushSetExtents_keeps {exv}
    (hrun : c.flushSetExtents oset exv ctx = .ok c') (hc : P c) : P c' := by
  unfold flushSetExtents at hrun
  split_ifs at hrun
  · cases hrun
    exact hc
  · exact foldlM_invariant hrun
      (fun ex _ d d' hd hstep => flushExtent_keeps hsend hwait hstep hd) hc

include hok

theorem writeDirty_keeps (heads : List Entry)
    (hdist : heads.Pairwise fun e e' => e.1 ≠ e'.1) (hfind : c.objects.find? key = some ob)
    (hmem : ∀ e ∈ heads, e ∈ ob.data.entries) (hrun : c.writeDirty key heads = .ok c') (hc : P c) :
    P c' ∧ ∀ key', key' ≠ key → c'.objects.find? key' = c.objects.find? key' := by
  induction heads generalizing c ob with
  | nil =>
    cases hrun
    exact ⟨hc, fun _ _ => rfl⟩
  | cons e heads ih =>
    obtain ⟨hne, hdist⟩ := pairwise_cons.mp hdist
    unfold writeDirty at hrun
    rw [foldlM_cons] at hrun
    obtain ⟨c1, hstep, hrun⟩ := bind_eq_ok.mp hrun
    split_ifs at hstep with hdirty
    · have hhead := hmem e mem_cons_self
      obtain ⟨pre, post, he⟩ := append_of_mem hhead
      obtain ⟨_, ob1, hstep', -, hfind1, he1⟩ := bhWrite_spec (hok c hc) hfind he hdirty
      cases hstep.symm.trans hstep'
      have hmem1 : ∀ e' ∈ heads, e' ∈ ob1.data.entries := by
        intro e' hin
        have hold := hmem e' (mem_cons_of_mem _ hin)
        rw [he] at hold
        rw [he1]
        simp only [mem_append, mem_cons] at hold ⊢
        rcases hold with hold | rfl | hold
        · exact .inl hold
        · exact absurd rfl (hne _ hin)
        · exact .inr (.inr hold)
      obtain ⟨hc', hothers⟩ := ih hdist hfind1 hmem1 hrun
        (hsend _ _ _ _ ⟨⟨ob, e.2, hfind, hhead, hdirty⟩, hstep⟩ hc)
      refine ⟨hc', fun key' hkey => ?_⟩
      rw [hothers key' hkey, bhWrite_others hstep hkey]
    · cases hstep
      exact ih hdist hfind (fun e' he' => hmem e' (mem_cons_of_mem _ he')) hrun hc

theorem writeDirty_all_keeps (objs : List (Soid × Object))
    (hdist : objs.Pairwise fun e e' => e.1 ≠ e'.1)
    (hfind : ∀ e ∈ objs, c.objects.find? e.1 = some e.2)
    (hrun : objs.foldlM (fun c e => c.writeDirty e.1 e.2.data.entries) c = .ok c') (hc : P c) :
    P c' := by
  induction objs generalizing c with
  | nil =>
    cases hrun
    exact hc
  | cons e objs ih =>
    obtain ⟨hne, hdist⟩ := pairwise_cons.mp hdist
    obtain ⟨c1, hstep, hrun⟩ := bind_eq_ok.mp hrun
    obtain ⟨hc1, hothers⟩ := writeDirty_keeps hok hsend _ (e.2.data.sorted.imp fun h => h.ne)
      (hfind e mem_cons_self) (fun _ h => h) hstep hc
    refine ih hdist (fun e' he' => ?_) hrun hc1
    rw [hothers e'.1 (hne e' he').symm]
    exact hfind e' (mem_cons_of_mem _ he')

include hwait

theorem flushSet_keeps (hrun : c.flushSet oset ctx = .ok c') (hc : P c) : P c' := by
  unfold flushSet at hrun
  split_ifs at hrun
  · cases hrun
    exact hc
  · obtain ⟨c1, hfold, hrun⟩ := bind_eq_ok.mp hrun
    have hdist : c.dirtyObjects.Pairwise fun e e' => e.1 ≠ e'.1 :=
      (c.objects.sorted.filter _).imp fun h => h.ne
    have hc1 := writeDirty_all_keeps hok hsend _ hdist
      (fun e he => find?_of_mem (mem_of_mem_filter he)) hfold hc
    exact foldlM_invariant hrun (fun e _ d d' hd hstep => hwait _ _ _ _ hstep hd) hc1

end Keeps

/-- What a flush does, sends of dirty heads and waits, refines sends. -/
abbrev Flushed : Cacher → Cacher → Prop := Steps Label.Sends

variable {d d' : Cacher} {k ctx : ℕ}

theorem Flushed.send (hd : Flushed c d) (h : d.SendsDirty key k d') : Flushed c d' :=
  hd.trans (h.refines hd.ok)

theorem Flushed.wait (hd : Flushed c d) (h : d.waitObject ctx key = .ok d') : Flushed c d' :=
  hd.trans (.unseen (waitObject_refines hd.ok h))

end CephDokan.ObjectCacher.Cacher
