import CephDokan.Osdc.ObjectCacher.Evolution

/-!
# Requests and replies

What the functions that talk to the backing store do to one object: a head that is sent
or asked for, the reply to a read, the commit of a write, and a head that is trimmed.
-/

namespace CephDokan.ObjectCacher.Focus

open Fallible BufferHead

variable {rest : Multiset Item} {f f' : Focus} {pre post : List Entry} {k tid : ℕ}
  {bh bh' : BufferHead}

section

variable (hf : f.Ok rest) (he : f.ob.data.entries = pre ++ (k, bh) :: post)

include hf he

theorem requestBh_spec (hempty : bh.bl = []) (tid : ℕ) :
    ∃ f', f.requestBh k tid = .ok f' ∧ f'.Ok rest ∧ f'.ob.frame = f.ob.frame ∧
      f'.ob.data.entries = pre ++ (k, { bh.withState .rx with lastReadTid := tid }) :: post ∧
      ∀ b, cells f'.ob.data.entries b = if k ≤ b ∧ b < k + bh.length
        then some (.rx tid) else cells f.ob.data.entries b := by
  obtain ⟨f1, hrun, hb⟩ := bhSetState_spec hf.accounts he .rx
  have hass : Becomes rest f1
      (pre ++ (k, { bh.withState .rx with lastReadTid := tid }) :: post) _ :=
    assign_spec hb.accounts hb.entries rfl
  have hok := hf.entry he
  obtain ⟨hok', hcells⟩ := hf.replaced he (hb.trans hass) ⟨hok.start, hok.pos, hok.waiters⟩ rfl
    (by simpa [Filled, withState] using hempty)
  refine ⟨_, ?_, hok', (hb.trans hass).frame, hass.entries, hcells⟩
  rw [requestBh, hrun, ok_bind, deref_eq hb.entries]
  rfl

theorem sendBh_spec (hdirty : bh.state = .dirty) (tid : ℕ) :
    ∃ f', f.sendBh k tid = .ok f' ∧ f'.Ok rest ∧
      f'.ob.frame = { f.ob.frame with ref := f.ob.frame.ref + 1, lastWriteTid := tid } ∧
      f'.ob.data.entries = pre ++ (k, { bh.withState .tx with lastWriteTid := tid }) :: post ∧
      ∀ b, cells f'.ob.data.entries b = if k ≤ b ∧ b < k + bh.length
        then some (.tx tid bh.bl[b - k]? bh.snapc) else cells f.ob.data.entries b := by
  obtain ⟨g, hg⟩ : ∃ g : Focus, g = { f with ob := { f.ob with
    ref := f.ob.ref + 1, lastWriteTid := tid } } := ⟨_, rfl⟩
  have hpos : 0 < f.ob.ref := hf.accounts.held (by simp [he])
  have hok := hf.entry he
  have hfill := hf.fill he
  have hgok : g.Ok rest := by
    subst hg
    exact ⟨⟨hf.accounts.books, hf.accounts.dirty, fun _ => Nat.succ_pos _⟩, hf.shape, hf.filled⟩
  have hge : g.ob.data.entries = pre ++ (k, bh) :: post := by
    subst hg
    exact he
  have hass : Becomes rest g (pre ++ (k, { bh with lastWriteTid := tid }) :: post) _ :=
    assign_spec hgok.accounts hge rfl
  obtain ⟨f', hrun, hb⟩ := bhSetState_spec hass.accounts hass.entries .tx
  have hfill' : bh.bl.length = bh.length := by
    simpa [Filled, hdirty] using hfill
  obtain ⟨hok', hcells⟩ := hgok.replaced hge (hass.trans hb) ⟨hok.start, hok.pos, hok.waiters⟩ rfl
    (by simpa [Filled, withState] using hfill')
  refine ⟨f', ?_, hok', ?_, hb.entries, ?_⟩
  · rw [sendBh, deref_eq he, ok_bind, ← hrun, hg]
  · rw [(hass.trans hb).frame, hg]
    have hne : f.ob.data.entries ≠ [] := by simp [he]
    simp only [Object.frame, if_neg hne]
    congr 1
    omega
  · intro b
    have hstart : bh.start = k := hok.start
    rw [hcells, hg]
    simp only [cell, withState, hstart]

end

/-! ### Replies to reads -/

/-- What the reply `r` to a read does to a byte; `absent` if it says that the object does not
exist and the cache did not know. -/
inductive Replied (rd : ReadFinish) (r : ℤ) (absent : Prop) : CellRel
  | keep (c : Option Cell) : Replied rd r absent c c
  | data (v : Option UInt8) (hr : 0 ≤ r) : Replied rd r absent (some (.rx rd.tid)) (some (.clean v))
  | error (hr : r < 0) (hne : r ≠ enoent) : Replied rd r absent (some (.rx rd.tid)) (some .error)
  | gone (hr : r = enoent) (ht : rd.trustEnoent = true) :
      Replied rd r absent (some (.rx rd.tid)) none
  | useless (x : Cell) (h : absent) (hx : x.Useless) : Replied rd r absent (some x) none

variable {rd : ReadFinish} {r : ℤ} {a b : Option Cell} {bl : Bytes} {opos : ℕ} {w : WriteCommit}
  {absent : Prop} {c : Option Cell}

theorem Replied.trans (h : Replied rd r absent a b) (h' : Replied rd r absent b c) :
    Replied rd r absent a c := by
  cases h' with
  | keep => exact h
  | useless x habs hx =>
    cases h with
    | keep => exact .useless x habs hx
    | _ => rcases hx with hx | ⟨_, hx⟩ <;> cases hx
  | _ =>
    -- the byte waited for the read, so the first step did nothing to it
    cases h
    constructor <;> assumption

theorem Replied.mono {p q} (h : Replied rd r p a b) (hpq : p → q) : Replied rd r q a b := by
  cases h with
  | useless x habs hx => exact .useless x (hpq habs) hx
  | _ => constructor <;> assumption

theorem fillBh_evolves (hf : f.Ok rest) (he : f.ob.data.entries = pre ++ (k, bh) :: post)
    (hrx : bh.state = .rx) (htid : bh.lastReadTid = rd.tid) (hne : r ≠ enoent)
    (hrun : f.fillBh k bh opos bl r = .ok f') : Evolves rest (Replied rd r absent) f f' ∧
      ∃ bh', f'.deref k = .ok bh' ∧ (bh'.state = .clean ∨ bh'.state = .error) := by
  have hok := hf.entry he
  have hempty : bh.bl = [] := by
    simpa [Filled, hrx] using hf.fill he
  have hcell : ∀ b, bh.cell b = .rx rd.tid := by
    intro b
    simp only [cell, hrx, htid]
  unfold fillBh at hrun
  split_ifs at hrun with hr
  · have hass : Becomes rest f (pre ++ (k, { bh with error := r }) :: post) _ :=
      assign_spec hf.accounts he rfl
    obtain ⟨f1, hrun1, hb⟩ := bhSetState_spec hass.accounts hass.entries .error
    cases hrun.symm.trans hrun1
    refine ⟨hf.replace he (hass.trans hb) ⟨hok.start, hok.pos, hok.waiters⟩ rfl ?_
      Replied.keep ?_, _, deref_eq hb.entries, .inr rfl⟩
    · simpa [Filled, withState] using hempty
    · intro b _ _
      rw [hcell]
      exact .error hr hne
  · obtain ⟨part, hpart, hrun⟩ := bind_eq_ok.mp hrun
    have hass : Becomes rest f (pre ++ (k, { bh with bl := part }) :: post) _ :=
      assign_spec hf.accounts he rfl
    obtain ⟨f1, hrun1, hb⟩ := bhSetState_spec hass.accounts hass.entries .clean
    cases hrun.symm.trans hrun1
    refine ⟨hf.replace he (hass.trans hb) ⟨hok.start, hok.pos, hok.waiters⟩ rfl ?_
      Replied.keep ?_, _, deref_eq hb.entries, .inl rfl⟩
    · simpa [Filled, withState] using Bytes.length_of_substrOf hpart
    · intro b _ _
      rw [hcell]
      exact .data _ (by omega)

theorem finishBh_evolves (hf : f.Ok rest) (hd : f.deref k = .ok bh) (hrx : bh.state = .rx)
    (htid : bh.lastReadTid = rd.tid) (hrun : f.finishBh k rd opos bl r = .ok f') :
    Evolves rest (Replied rd r absent) f f' := by
  obtain ⟨pre, post, he⟩ := deref_cases hd
  unfold finishBh at hrun
  rw [hd, ok_bind] at hrun
  obtain ⟨-, -, hrun⟩ := bind_eq_ok.mp hrun
  obtain ⟨-, -, hrun⟩ := bind_eq_ok.mp hrun
  split_ifs at hrun with hr ht
  · obtain ⟨pre', bh', post', he', hb⟩ := bhRemove_cases hf hrun
    refine hf.remove he' hb Replied.keep ?_
    intro b _ _
    cases hd.symm.trans (deref_eq he')
    have hcell : bh.cell b = .rx rd.tid := by
      simp only [cell, hrx, htid]
    rw [hcell]
    exact .gone hr ht
  · cases hrun
    exact Evolves.refl hf Replied.keep
  · obtain ⟨g, hg, hrun⟩ := bind_eq_ok.mp hrun
    obtain ⟨hev, bh', hd', hstate⟩ := fillBh_evolves hf he hrx htid hr hg
    obtain ⟨f1, hrun1, hev1⟩ := tryMergeBh_evolves hev.ok hd'
      (by rcases hstate with h | h <;> simp [h]) (by rcases hstate with h | h <;> simp [h])
      (by rcases hstate with h | h <;> simp [h])
    cases hrun.symm.trans hrun1
    exact hev.then_same hev1

theorem readFinishLoop_evolves (fuel : ℕ) (hf : f.Ok rest)
    (hrun : readFinishLoop rd bl r fuel f opos = .ok f') :
    Evolves rest (Replied rd r absent) f f' := by
  induction fuel generalizing f opos with
  | zero =>
    unfold readFinishLoop at hrun
    split_ifs at hrun
    cases hrun
    exact Evolves.refl hf Replied.keep
  | succ fuel ih =>
    unfold readFinishLoop at hrun
    split at hrun
    · cases hrun
      exact Evolves.refl hf Replied.keep
    · next k _ =>
      split_ifs at hrun with hend
      · cases hrun
        exact Evolves.refl hf Replied.keep
      · obtain ⟨g, hg, hrun⟩ := bind_eq_ok.mp hrun
        have hclear := clearWaiters_evolves hf hg
        obtain ⟨bh, hd, hrun⟩ := bind_eq_ok.mp hrun
        split_ifs at hrun with hgap hstate htid
        · exact hclear.same_then (ih hclear.ok hrun)
        · exact hclear.same_then (ih hclear.ok hrun)
        · exact hclear.same_then (ih hclear.ok hrun)
        · obtain ⟨g', hg', hrun⟩ := bind_eq_ok.mp hrun
          have hfin : Evolves rest (Replied rd r absent) g g' :=
            finishBh_evolves hclear.ok hd (not_not.mp hstate) (not_not.mp htid) hg'
          exact hclear.same_then (hfin.trans (ih hfin.ok hrun) (fun _ _ _ => Replied.trans))

theorem eachBh_clearWaiters_evolves {ks} (hf : f.Ok rest)
    (hrun : f.eachBh clearWaiters ks = .ok f') : Evolves rest (fun a b => b = a) f f' := by
  refine foldlM_invariant (P := fun g => Evolves rest (fun a b => b = a) f g) hrun ?_
    (Evolves.refl hf fun _ => rfl)
  intro k _ g g' hg hstep
  exact hg.then_same (clearWaiters_evolves hg.ok hstep)

theorem useless_iff (bh : BufferHead) (b : ℕ) :
    Cell.Useless (bh.cell b) ↔ bh.state = .zero ∨ bh.state = .rx := by
  unfold Cell.Useless cell
  cases bh.state <;> simp

theorem allZero_cells (h : f.allZero = true) {b : ℕ} {x}
    (hx : cells f.ob.data.entries b = some x) : Cell.Useless x := by
  obtain ⟨e, he, -, -, rfl⟩ := Extents.exists_of_look hx
  have hall := List.all_eq_true.mp h e he
  exact (useless_iff e.2 b).mpr (decide_eq_true_iff.mp hall)

theorem readEnoent_evolves (hf : f.Ok rest) (hrun : f.readEnoent rd.trustEnoent = .ok f') :
    Evolves rest (Replied rd r (rd.trustEnoent = true))
      (if rd.trustEnoent then f.withFlags true false else f) f' := by
  obtain ⟨g, hg, hrun⟩ := bind_eq_ok.mp hrun
  have hclear := eachBh_clearWaiters_evolves hf hg
  split_ifs at hrun with htrust hzero
  · rw [if_pos htrust]
    have hdrop : Evolves rest (Drops Cell.Useless) (g.withFlags true false) f' := by
      refine eachBh_bhRemove_evolves (hclear.ok.flags true false) ?_ hrun
      intro k _ bh hmem b
      have hpos : 0 < bh.length := (hclear.ok.shape.entry _ hmem).pos
      have hcell : cells g.ob.data.entries k = some (bh.cell k) :=
        Extents.look_of_mem hclear.ok.shape.ordered hmem le_rfl (Nat.lt_add_of_pos_right hpos)
      rw [hclear.cells k] at hcell
      exact (useless_iff bh b).mpr ((useless_iff bh k).mp (allZero_cells hzero hcell))
    refine (hclear.flags true false).same_then (hdrop.mono ?_)
    intro a b hab
    rcases hab with rfl | ⟨rfl, x, rfl, hx⟩
    · exact .keep _
    · exact .useless x htrust hx
  · cases hrun
    rw [if_pos htrust]
    exact (hclear.flags true false).mono (fun a b hab => hab ▸ .keep _)
  · cases hrun
    rw [if_neg htrust]
    exact hclear.mono (fun a b hab => hab ▸ .keep _)

theorem readFinish_evolves (hf : f.Ok rest) (hrun : f.readFinish rd bl r = .ok f') :
    Evolves rest (Replied rd r (r = enoent ∧ rd.trustEnoent = true ∧ f.ob.complete = false))
      (if r = enoent ∧ rd.trustEnoent = true ∧ f.ob.complete = false
        then f.withFlags true false else f) f' := by
  unfold readFinish at hrun
  split_ifs at hrun with henoent
  · obtain ⟨g, hg, hrun⟩ := bind_eq_ok.mp hrun
    have hcomplete : f.ob.complete = false := Bool.eq_false_of_not_eq_true henoent.2
    have hiff : (r = enoent ∧ rd.trustEnoent = true ∧ f.ob.complete = false) ↔
        rd.trustEnoent = true := by
      simp [henoent.1, hcomplete]
    simp only [hiff]
    have hev := readEnoent_evolves (r := r) hf hg
    exact hev.trans (readFinishLoop_evolves _ hev.ok hrun) (fun _ _ _ => Replied.trans)
  · have hnot : ¬(r = enoent ∧ rd.trustEnoent = true ∧ f.ob.complete = false) := by
      rintro ⟨hr, -, hcomplete⟩
      exact henoent ⟨hr, by simp [hcomplete]⟩
    rw [if_neg hnot]
    exact readFinishLoop_evolves _ hf hrun

/-! ### Commits of writes -/

/-- What the commit of write `tid` with result `r` does to a byte. -/
inductive Committed (tid : ℕ) (r : ℤ) : CellRel
  | keep (c : Option Cell) : Committed tid r c c
  | clean (v : Option UInt8) (snapc : SnapContext) (hr : 0 ≤ r) :
      Committed tid r (some (.tx tid v snapc)) (some (.clean v))
  | again (v : Option UInt8) (snapc : SnapContext) (hr : r < 0) :
      Committed tid r (some (.tx tid v snapc)) (some (.dirty v snapc))

theorem Committed.trans (h : Committed tid r a b) (h' : Committed tid r b c) :
    Committed tid r a c := by
  cases h' with
  | keep => exact h
  | _ =>
    cases h
    constructor
    assumption

theorem commitBh_evolves (hf : f.Ok rest)
    (hrun : f.commitBh k w r = .ok f') : Evolves rest (Committed w.tid r) f f' := by
  obtain ⟨bh, hd, hrun⟩ := bind_eq_ok.mp hrun
  obtain ⟨pre, post, he, hok, hfill⟩ := hf.deref_cases hd
  split_ifs at hrun with hcover hstate htid hr
  · cases hrun
    exact Evolves.refl hf Committed.keep
  · cases hrun
    exact Evolves.refl hf Committed.keep
  · obtain ⟨-, -, hrun⟩ := bind_eq_ok.mp hrun
    cases hrun
    exact Evolves.refl hf Committed.keep
  all_goals
    have htx : bh.state = .tx := not_not.mp hstate
    have hfill : bh.bl.length = bh.length := by
      simpa [Filled, htx] using hfill
    have hcell : ∀ b, bh.cell b = .tx w.tid bh.bl[b - bh.start]? bh.snapc := by
      intro b
      simp only [cell, htx, not_not.mp htid]
  · obtain ⟨f1, hrun1, hb⟩ := bhSetState_spec hf.accounts he .clean
    cases hrun.symm.trans hrun1
    refine hf.replace he hb ⟨hok.start, hok.pos, hok.waiters⟩ rfl
      (by simpa [Filled, withState] using hfill) Committed.keep ?_
    intro b _ _
    rw [hcell]
    exact .clean _ _ hr
  · obtain ⟨f1, hrun1, hb⟩ := markDirty_spec hf.accounts he
    cases hrun.symm.trans hrun1
    refine hf.replace he hb ⟨hok.start, hok.pos, hok.waiters⟩ rfl
      (by simpa [Filled, withState] using hfill) Committed.keep ?_
    intro b _ _
    rw [hcell]
    exact .again _ _ (by omega)

theorem commitLoop_evolves (fuel : ℕ) {p} (hf : f.Ok rest)
    (hrun : commitLoop w r fuel f p = .ok f') : Evolves rest (Committed w.tid r) f f' := by
  induction fuel generalizing f p with
  | zero =>
    unfold commitLoop at hrun
    split_ifs at hrun
    cases hrun
    exact Evolves.refl hf Committed.keep
  | succ fuel ih =>
    cases p with
    | none =>
      cases hrun
      exact Evolves.refl hf Committed.keep
    | some k =>
      obtain ⟨bh, hd, hrun⟩ := bind_eq_ok.mp hrun
      split_ifs at hrun with hend
      · cases hrun
        exact Evolves.refl hf Committed.keep
      · obtain ⟨g, hg, hrun⟩ := bind_eq_ok.mp hrun
        have hev := commitBh_evolves hf hg
        exact hev.trans (ih hev.ok hrun) (fun _ _ _ => Committed.trans)

theorem markExists_eq (f : Focus) (copyOnWrite : Bool) : f.markExists copyOnWrite =
    f.withFlags (f.ob.complete && (f.ob.objExists || !copyOnWrite)) true := by
  obtain ⟨books, ob⟩ := f
  obtain ⟨_, _, _, _, _, complete, objExists, _, _, _, _, _, _⟩ := ob
  cases objExists
  · cases copyOnWrite <;> simp [markExists, withFlags]
  · simp [markExists, withFlags]

theorem writeCommit_evolves {copyOnWrite} (hf : f.Ok rest)
    (hheld : 0 < f.ob.frame.ref) (hrun : f.writeCommit w r copyOnWrite = .ok f') : f'.Ok rest ∧
    (∀ b, Committed w.tid r (cells f.ob.data.entries b) (cells f'.ob.data.entries b)) ∧
    f'.ob.oid = f.ob.oid ∧ f'.ob.objExists = true ∧
    f'.ob.complete = (f.ob.complete && (f.ob.objExists || !copyOnWrite)) ∧
    f'.ob.frame.ref + 1 = f.ob.frame.ref := by
  unfold writeCommit at hrun
  rw [markExists_eq] at hrun
  obtain ⟨g, hg, hrun⟩ := bind_eq_ok.mp hrun
  obtain ⟨-, -, hrun⟩ := bind_eq_ok.mp hrun
  obtain ⟨-, -, hrun⟩ := bind_eq_ok.mp hrun
  cases hrun
  have hev := commitLoop_evolves _ (hf.flags _ _) hg
  have href : g.ob.frame.ref = f.ob.frame.ref := (congrArg Object.ref hev.frame :)
  have hexists : g.ob.objExists = true := (congrArg Object.objExists hev.frame :)
  have hdef : g.ob.frame.ref = g.ob.ref - if g.ob.data.entries = [] then 0 else 1 := rfl
  refine ⟨⟨⟨hev.ok.accounts.books, hev.ok.accounts.dirty, ?_⟩, hev.ok.shape, hev.ok.filled⟩,
    hev.cells, hev.oid, hexists, hev.complete, ?_⟩
  · intro hne
    change 0 < g.ob.ref - 1
    rw [if_neg hne] at hdef
    omega
  · change g.ob.ref - 1 - (if g.ob.data.entries = [] then 0 else 1) + 1 = _
    omega

/-! ### Trimming -/

/-- `lru_expire` has taken the head off its list already. -/
theorem bhRemove_withBooks {books} {l : Lru} (hd : f.deref k = .ok bh)
    (hl : f.books.bhLru bh.id = some l) (hl' : bh.lru = l)
    (hbooks : f.books.lruRemove l bh.id = .ok books) :
    (f.withBooks books).bhRemove k = f.bhRemove k := by
  rw [lruRemove_eq hl] at hbooks
  cases hbooks
  have hd' : ∀ b, (f.withBooks b).deref k = .ok bh := fun _ => hd
  obtain ⟨b, hb⟩ : ∃ b : Books, b = { f.books with
    bhLru := Function.update f.books.bhLru bh.id none } := ⟨_, rfl⟩
  have hgone : b.lruRemove l bh.id = .ok b := by
    have hnone : b.bhLru bh.id = none := by
      rw [hb]
      exact Function.update_self ..
    rw [Books.lruRemove, hnone]
    rfl
  rw [← hb]
  unfold bhRemove removeBh
  rw [hd, hd']
  simp only [ok_bind, bind_assoc, pure_eq_ok, withBooks, hl', lruRemove_eq hl, hgone, ← hb]
  rfl

theorem trimBh_evolves {maxSize : ℕ} (hf : f.Ok rest) (hrun : f.trimBh maxSize k = .ok f') :
    f' = f ∨ Evolves rest (Drops Cell.Clean) (f.withFlags false f.ob.objExists) f' := by
  obtain ⟨bh, hd, hrun⟩ := bind_eq_ok.mp hrun
  obtain ⟨pre, post, he⟩ := deref_cases hd
  split_ifs at hrun with hcond
  · obtain ⟨books, hbooks, hrun⟩ := bind_eq_ok.mp hrun
    obtain ⟨u, hclean, hrun⟩ := bind_eq_ok.mp hrun
    obtain ⟨g, hg, hrun⟩ := bind_eq_ok.mp hrun
    cases hrun
    have hlru : f.books.bhLru bh.id = some .rest := hcond.2.1 ▸ (hf.accounts.mid he).lru_eq
    rw [bhRemove_withBooks hd hlru hcond.2.1 hbooks] at hg
    have hev : Evolves rest (Drops Cell.Clean) f g := by
      refine (bhRemove_evolves hf ?_ hg).1
      intro bh' hmem b
      have hfind := SortedMap.find?_of_mem hmem
      rw [SortedMap.find?_split he] at hfind
      cases hfind
      exact clean_of_state (assertThat_eq_ok.mp hclean) b
    right
    have hflag := hev.flags false f.ob.objExists
    have hexists : g.ob.objExists = f.ob.objExists := (congrArg Object.objExists hev.frame :)
    rw [← hexists] at hflag ⊢
    exact hflag
  · cases hrun
    exact .inl rfl

end CephDokan.ObjectCacher.Focus
