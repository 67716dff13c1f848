import CephDokan.Osdc.ObjectCacher.Writeback

/-!
# Waiting for a flush

`flush_set` sends all that is dirty and waits, for each object, for the commit of the newest
write. As the commits of an object come in the order of their numbers and none of them fails,
the bytes written before the flush are in the store when the last of these commits has come.
-/

namespace CephDokan.ObjectCacher

open Fallible List Cacher SortedMap

namespace Focus

variable {f f' : Focus} {k tid : ℕ}

theorem bhSetState_lastWriteTid {s} (hrun : f.bhSetState k s = .ok f') :
    f'.ob.lastWriteTid = f.ob.lastWriteTid := by
  obtain ⟨bh, -, hrun⟩ := bind_eq_ok.mp hrun
  obtain ⟨books, -, hrun⟩ := bind_eq_ok.mp hrun
  cases hrun
  simp [exchange, bhStatAdd, assign, bhStatSub, withBooks, statBy_eq]

theorem sendBh_lastWriteTid (hrun : f.sendBh k tid = .ok f') : f'.ob.lastWriteTid = tid := by
  obtain ⟨bh, -, hrun⟩ := bind_eq_ok.mp hrun
  exact bhSetState_lastWriteTid hrun

end Focus

variable {x : Option UInt8} {b : ℕ} {r : ℤ}

namespace Cacher

variable {c c' : Cacher} {key key' : Soid} {f : Focus} {k ctx : ℕ}

def lastSent (c : Cacher) (key : Soid) : ℕ := (c.objects.find? key).elim 0 Object.lastWriteTid

/-- The numbers of the writes in flight are among those that were given out. -/
structure Tracks (c : Cacher) : Prop where
  last : ∀ w ∈ c.writes, w.tid ≤ c.lastTid
  sent : ∀ w ∈ c.writes, w.tid ≤ c.lastSent w.key

theorem lastSent_put_self (c : Cacher) (key : Soid) (f : Focus) :
    (c.put key f).lastSent key = f.ob.lastWriteTid := by
  rw [lastSent, put_find?_self]
  rfl

theorem lastSent_put_of_ne (c : Cacher) (f : Focus) (h : key' ≠ key) :
    (c.put key f).lastSent key' = c.lastSent key' := by
  rw [lastSent, put_find?_of_ne c f h, lastSent]

theorem Tracks.put (h : c.Tracks) (hsent : f.ob.lastWriteTid = c.lastSent key) :
    (c.put key f).Tracks := by
  refine ⟨h.last, fun w hw => ?_⟩
  have hle := h.sent w hw
  by_cases hkey : w.key = key
  · rwa [hkey, lastSent_put_self, hsent, ← hkey]
  · rwa [lastSent_put_of_ne c f hkey]

theorem lastSent_of_find? {ob} (h : c.objects.find? key = some ob) :
    c.lastSent key = ob.lastWriteTid := by
  rw [lastSent, h]
  rfl

theorem Tracks.bhWrite (h : c.Tracks) (hrun : c.bhWrite key k = .ok c') : c'.Tracks := by
  obtain ⟨f, -, hrun⟩ := bind_eq_ok.mp hrun
  obtain ⟨bh, -, hrun⟩ := bind_eq_ok.mp hrun
  obtain ⟨f', hsend, hrun⟩ := bind_eq_ok.mp hrun
  cases hrun
  have hself : (c.put key f').lastSent key = c.lastTid + 1 := by
    rw [lastSent_put_self, Focus.sendBh_lastWriteTid hsend]
  constructor
  · intro w hw
    rcases mem_append.mp hw with hw | hw
    · exact (h.last w hw).trans (Nat.le_succ _)
    · rw [mem_singleton.mp hw]
  · intro w hw
    show w.tid ≤ (c.put key f').lastSent w.key
    rcases mem_append.mp hw with hw | hw
    · by_cases hkey : w.key = key
      · rw [hkey, hself]
        exact (h.last w hw).trans (Nat.le_succ _)
      · rw [lastSent_put_of_ne c f' hkey]
        exact h.sent w hw
    · rw [mem_singleton.mp hw, hself]

theorem waitObject_cases (hrun : c.waitObject ctx key = .ok c') :
    ∃ ob, c.objects.find? key = some ob ∧ c' = c.put key (Focus.waitCommit ⟨c.books, ob⟩ ctx) := by
  obtain ⟨ob, f, hfind, hf, rfl⟩ := atObject_cases hrun
  cases hf
  exact ⟨ob, hfind, rfl⟩

theorem Tracks.waitObject (h : c.Tracks) (hrun : c.waitObject ctx key = .ok c') : c'.Tracks := by
  obtain ⟨ob, hfind, rfl⟩ := waitObject_cases hrun
  exact h.put (lastSent_of_find? hfind).symm

theorem Tracks.flush {op : Op} (h : c.Tracks) (hc : c.Ok) (hop : op.Flushes)
    (hrun : c.step op = .ok c') : c'.Tracks :=
  (flush_keeps (fun _ _ _ _ hrun hd => hd.bhWrite hrun) (fun _ _ _ _ hrun hd => hd.waitObject hrun)
    hop hc hrun h).2

variable {oset : ObjectSet}

theorem Tracks.writex {wr} {now : ℕ} (h : c.Tracks) (hc : c.Ok) (hwr : wr.Ok)
    (hrun : c.writex oset wr now = .ok c') : c'.Tracks := by
  refine writex_keeps ?_ hc hwr hrun h
  intro d d' ex hok hex hstep hd
  rcases hwr.fragments hex with ⟨first, hfrag⟩ | hfrags
  swap
  · rw [writeObject_several oset now hok hwr hex hfrags] at hstep
    cases hstep
  obtain ⟨rest, f, l, l', hrun', -, hf, -⟩ := writeObject_spec oset now hok hwr hex hfrag
  cases hstep.symm.trans hrun'
  have hframe := congrArg Object.lastWriteTid hf.frame
  refine hd.put (Eq.trans hframe ?_)
  unfold lastSent Object.frame objectFor
  cases d.objects.find? (writeKey ex) <;> rfl

theorem Tracks.commit {w} (h : c.Tracks) (hc : c.Ok)
    (hrun : c.bhWriteCommit w r = .ok c') : c'.Tracks := by
  obtain ⟨c1, hcached, hrun⟩ := bind_eq_ok.mp hrun
  cases hrun
  have hc1 : c1.Tracks := by
    unfold ifCached at hcached
    split_ifs at hcached
    · obtain ⟨ob, f', hfind, hop, rfl⟩ := atObject_cases hcached
      obtain ⟨rest, hf, -⟩ := hc.at hfind
      refine h.put ?_
      unfold Focus.writeCommit at hop
      rw [Focus.markExists_eq] at hop
      obtain ⟨g, hg, hop⟩ := bind_eq_ok.mp hop
      obtain ⟨-, -, hop⟩ := bind_eq_ok.mp hop
      obtain ⟨-, -, hop⟩ := bind_eq_ok.mp hop
      cases hop
      have hframe := congrArg Object.lastWriteTid
        (Focus.commitLoop_evolves _ (hf.flags _ _) hg).frame
      rw [lastSent_of_find? hfind]
      exact hframe
    · cases hcached
      exact h
  exact ⟨fun w hw => hc1.last w (mem_of_mem_filter hw),
    fun w hw => hc1.sent w (mem_of_mem_filter hw)⟩

/-! ### What a flush sends -/

def NoDirty (ob : Object) : Prop := ∀ e ∈ ob.data.entries, e.2.state ≠ .dirty

theorem writeDirty_spec {ob} (done heads : List Entry) (hc : c.Ok)
    (hfind : c.objects.find? key = some ob) (he : ob.data.entries = done ++ heads)
    (hdone : ∀ e ∈ done, e.2.state ≠ .dirty) :
    ∃ c' ob', c.writeDirty key heads = .ok c' ∧ c'.Ok ∧ c'.objects.find? key = some ob' ∧
      NoDirty ob' ∧ ∀ key', key' ≠ key → c'.objects.find? key' = c.objects.find? key' := by
  induction heads generalizing c ob done with
  | nil =>
    refine ⟨c, ob, rfl, hc, hfind, ?_, fun _ _ => rfl⟩
    intro e hmem
    rw [he, append_nil] at hmem
    exact hdone e hmem
  | cons e heads ih =>
    unfold writeDirty
    rw [foldlM_cons]
    by_cases hdirty : e.2.state = .dirty
    · obtain ⟨c1, ob1, hrun, href, hfind1, he1⟩ := bhWrite_spec hc hfind he hdirty
      rw [if_pos hdirty, hrun, ok_bind]
      rw [← concat_append, concat_eq_append] at he1
      obtain ⟨c', ob', hrest, hc', hfind', hno, hothers⟩ := ih _ href.ok hfind1 he1
        (forall_mem_append.mpr ⟨hdone, by simp [BufferHead.withState]⟩)
      refine ⟨c', ob', hrest, hc', hfind', hno, fun key' hkey => ?_⟩
      rw [hothers key' hkey, bhWrite_others hrun hkey]
    · rw [if_neg hdirty]
      exact ih (done ++ [e]) hc hfind (by simp [he])
        (forall_mem_append.mpr ⟨hdone, forall_mem_singleton.mpr hdirty⟩)

theorem writeDirty_all_spec (objs : List (Soid × Object)) (hc : c.Ok)
    (hdist : objs.Pairwise fun e e' => e.1 ≠ e'.1)
    (hfind : ∀ e ∈ objs, c.objects.find? e.1 = some e.2)
    (hrest : ∀ key ob, c.objects.find? key = some ob → (∀ e ∈ objs, e.1 ≠ key) → NoDirty ob) :
    ∃ c', objs.foldlM (fun c e => c.writeDirty e.1 e.2.data.entries) c = .ok c' ∧
      (∀ key ob, c'.objects.find? key = some ob → NoDirty ob) ∧
      ∀ key, (c.objects.find? key).isSome → (c'.objects.find? key).isSome := by
  induction objs generalizing c with
  | nil => exact ⟨c, rfl, fun key ob h => hrest key ob h (by simp), fun _ h => h⟩
  | cons e objs ih =>
    obtain ⟨hne, hdist⟩ := pairwise_cons.mp hdist
    obtain ⟨c1, ob1, hrun, hc1, hfind1, hno, hothers⟩ :=
      writeDirty_spec [] e.2.data.entries hc (hfind e mem_cons_self) rfl (by simp)
    rw [foldlM_cons, hrun, ok_bind]
    have hfind' : ∀ e' ∈ objs, c1.objects.find? e'.1 = some e'.2 := by
      intro e' he'
      rw [hothers e'.1 (Ne.symm (hne e' he'))]
      exact hfind e' (mem_cons_of_mem _ he')
    have hrest' : ∀ key ob, c1.objects.find? key = some ob → (∀ e' ∈ objs, e'.1 ≠ key) →
        NoDirty ob := by
      intro key ob hob hnot
      by_cases heq : key = e.1
      · rw [heq, hfind1] at hob
        exact Option.some.inj hob ▸ hno
      · rw [hothers key heq] at hob
        exact hrest key ob hob (forall_mem_cons.mpr ⟨Ne.symm heq, hnot⟩)
    obtain ⟨c', hfold, hall, hsome⟩ := ih hc1 hdist hfind' hrest'
    refine ⟨c', hfold, hall, fun key hkey => hsome key ?_⟩
    by_cases heq : key = e.1
    · simp [heq, hfind1]
    · rw [hothers key heq]
      exact hkey

theorem waitObject_all_spec (ctx : ℕ) (objs : List (Soid × Object))
    (hsome : ∀ e ∈ objs, (c.objects.find? e.1).isSome)
    (hall : ∀ key ob, c.objects.find? key = some ob → NoDirty ob) :
    ∃ c', objs.foldlM (fun c e => c.waitObject ctx e.1) c = .ok c' ∧
      ∀ key ob, c'.objects.find? key = some ob → NoDirty ob := by
  induction objs generalizing c with
  | nil => exact ⟨c, rfl, hall⟩
  | cons e objs ih =>
    obtain ⟨hone, hsome⟩ := forall_mem_cons.mp hsome
    obtain ⟨ob, hfind⟩ := Option.isSome_iff_exists.mp hone
    have hrun : c.waitObject ctx e.1 = .ok (c.put e.1 (Focus.waitCommit ⟨c.books, ob⟩ ctx)) :=
      atObject_eq hfind rfl
    rw [foldlM_cons, hrun, ok_bind]
    refine ih ?_ ?_
    · intro e' he'
      by_cases heq : e'.1 = e.1
      · simp [heq, put_find?_self]
      · rw [put_find?_of_ne c _ heq]
        exact hsome e' he'
    · intro key ob' hob'
      by_cases heq : key = e.1
      · rw [heq, put_find?_self] at hob'
        cases hob'
        exact hall e.1 ob hfind
      · rw [put_find?_of_ne c _ heq] at hob'
        exact hall key ob' hob'

theorem flushSet_spec (ctx : ℕ) (hc : c.Ok) (hne : c.objectsOf oset ≠ []) :
    ∃ c', c.flushSet oset ctx = .ok c' ∧ ∀ key ob, c'.objects.find? key = some ob → NoDirty ob := by
  have hdist : c.dirtyObjects.Pairwise fun e e' => e.1 ≠ e'.1 :=
    (c.objects.sorted.filter _).imp fun h => h.ne
  have hfind : ∀ e ∈ c.dirtyObjects, c.objects.find? e.1 = some e.2 :=
    fun e he => find?_of_mem (mem_of_mem_filter he)
  have hrest : ∀ key ob, c.objects.find? key = some ob → (∀ e ∈ c.dirtyObjects, e.1 ≠ key) →
      NoDirty ob := by
    intro key ob hob hnot h hh hdirty
    refine hnot (key, ob) (mem_filter.mpr ⟨mem_of_find? hob, ?_⟩) rfl
    refine any_eq_true.mpr ⟨h, hh, ?_⟩
    simp [BufferHead.isDirtyOrTx, hdirty]
  obtain ⟨c1, hwrite, hall, hsome⟩ := writeDirty_all_spec c.dirtyObjects hc hdist hfind hrest
  obtain ⟨c', hwait, hall'⟩ := waitObject_all_spec ctx c.dirtyObjects
    (fun e he => hsome e.1 (by rw [hfind e he]; rfl)) hall
  refine ⟨c', ?_, hall'⟩
  rw [flushSet, if_neg hne]
  simp only [hwrite, ok_bind, hwait]

theorem osetDirtyOrTx_nonneg (hc : c.Ok) (id : ℕ) : 0 ≤ c.books.osetDirtyOrTx id := by
  rw [hc.represented.oset]
  apply sum_nonneg
  intro n hn
  obtain ⟨h, -, rfl⟩ := mem_map.mp hn
  split_ifs
  · exact Int.natCast_nonneg _
  · exact le_rfl

theorem idle_of_empty (hc : c.Ok) (hempty : c.objectsOf oset = []) :
    c.books.osetDirtyOrTx oset.id = 0 := by
  rw [hc.represented.oset]
  apply sum_eq_zero
  intro n hn
  obtain ⟨h, hmem, rfl⟩ := mem_map.mp hn
  obtain ⟨key, k, hentry, -⟩ := mem_heads.mp hmem
  rw [if_neg]
  rintro ⟨hoset, -⟩
  have hkey : key ∈ c.objectsOf oset :=
    mem_map.mpr ⟨(key, h.1), mem_filter.mpr ⟨hentry, by simpa using hoset⟩, rfl⟩
  rw [hempty] at hkey
  cases hkey

theorem mem_dirtyObjects {h} (hh : c.view.hold key b = some h) (hheld : ∀ v, h ≠ .clean v)
    (hother : h ≠ .other) :
    ∃ ob, (key, ob) ∈ c.dirtyObjects ∧ ∃ e ∈ ob.data.entries, e.2.isDirtyOrTx = true := by
  obtain ⟨x, hx, rfl⟩ := Option.map_eq_some_iff.mp hh
  obtain ⟨ob, hob, hcell⟩ := Option.bind_eq_some_iff.mp (show c.cell key b = some x from hx)
  obtain ⟨e, he, -, -, rfl⟩ := Extents.exists_of_look hcell
  have hdirty : e.2.isDirtyOrTx = true := by
    unfold BufferHead.isDirtyOrTx
    unfold BufferHead.cell at hheld hother
    cases hstate : e.2.state <;> simp_all [Cell.hold]
  exact ⟨ob, mem_filter.mpr ⟨mem_of_find? hob, any_eq_true.mpr ⟨e, he, hdirty⟩⟩, e, he, hdirty⟩

theorem NoDirty.hold (hno : ∀ key ob, c.objects.find? key = some ob → NoDirty ob) :
    c.view.hold key b ≠ some (.dirty x) := by
  intro hhold
  obtain ⟨y, hcell, hy⟩ := Option.map_eq_some_iff.mp hhold
  obtain ⟨ob, hob, hcell⟩ := Option.bind_eq_some_iff.mp (show c.cell key b = some y from hcell)
  obtain ⟨e, he, -, -, rfl⟩ := Extents.exists_of_look hcell
  have hstate := hno key ob hob e he
  unfold BufferHead.cell at hy
  cases h : e.2.state <;> simp_all [Cell.hold]

end Cacher

/-! ### Bytes on their way -/

namespace View

variable {v v' : View} {written store : Content}

/-- A byte that waits for a write is in that write, or in the store already. -/
def Carried (v : View) (store : Content) : Prop :=
  ∀ key b t x, v.hold key b = some (.tx t x) →
    (store key b = x ∧ ∀ w ∈ v.writes, ¬w.Covers key b) ∨ ∃ w ∈ v.writes, w.tid = t

variable {snapc : SnapContext}

theorem Does.carried_write {key} {off : ℕ} {data}
    (h : Does (.write key off data snapc) v v') (hv : v.Carried store) : v'.Carried store := by
  have hwrites : v'.writes = v.writes := h.writes_eq
  intro key' b t x hx
  rw [hwrites]
  apply hv key' b t x
  by_cases hkey : key' = key
  · subst hkey
    obtain ⟨hin, hout, -⟩ := h.here b
    by_cases hr : off ≤ b ∧ b < off + data.length
    · obtain ⟨s, hs⟩ := hin hr
      rw [hold, show v'.cell key' b = _ from hs] at hx
      cases hx
    · have heq := congrArg (Option.map Cell.hold) (hout hr)
      simp only [Option.map_map, Function.comp_def, Cell.hold_forget] at heq
      exact heq.symm.trans hx
  · rw [hold, ← h.elsewhere key' hkey]
    exact hx

theorem Does.carried_send {key} {start : ℕ} {bl}
    (h : Does (.send key start bl snapc) v v') (hv : v.Carried store) : v'.Carried store := by
  have hwrites : v'.writes = v.writes ++ [v.newWrite key start bl snapc] := h.writes_eq
  intro key' b t x hx
  rw [hwrites]
  obtain ⟨hin, hout⟩ := h.hold_send key' b
  by_cases hr : (v.newWrite key start bl snapc).Covers key' b
  · rw [(hin hr).2] at hx
    cases hx
    exact .inr ⟨_, mem_append_right _ (mem_singleton_self _), rfl⟩
  · rw [hout hr] at hx
    rcases hv key' b t x hx with ⟨hstore, hfree⟩ | ⟨w, hw, ht⟩
    · refine .inl ⟨hstore, ?_⟩
      intro w hw
      rcases mem_append.mp hw with hw | hw
      · exact hfree w hw
      · rw [mem_singleton.mp hw]
        exact hr
    · exact .inr ⟨w, mem_append_left _ hw, ht⟩

theorem Does.carried_commit {w} {copied} (h : Does (.commit w r copied) v v')
    (hr : 0 ≤ r) (hfirst : ∀ w' ∈ v.writes, w'.key = w.key → w.tid ≤ w'.tid)
    (hb : v.Backs written store) (hv : v.Carried store) : v'.Carried (w.over store) := by
  have hw : w ∈ v.writes := h.ready
  have hwrites : v'.writes = v.writes.filter fun w' => w'.tid ≠ w.tid := h.writes_eq
  intro key b t x hx
  have hold : v.hold key b = some (.tx t x) := by
    rcases h.hold_commit key b with heq | ⟨y, hy, ⟨-, hnew⟩ | ⟨hneg, -⟩⟩
    · rw [← heq]
      exact hx
    · rw [hnew] at hx
      cases hx
    · omega
  rw [hwrites]
  obtain ⟨-, -, hnewest, hcarries⟩ := hb.tx key b t x hold
  by_cases ht : t = w.tid
  · obtain ⟨hcov, hval⟩ := hcarries w hw ht.symm
    refine .inl ⟨?_, ?_⟩
    · rw [WriteCommit.over, if_pos hcov, hval]
    · intro w' hw' hcov'
      obtain ⟨hmem, hne⟩ : w' ∈ v.writes ∧ w'.tid ≠ w.tid := by simpa using hw'
      have hle := hnewest w' hmem hcov'
      have hge := hfirst w' hmem (hcov'.1.trans hcov.1.symm)
      omega
  · rcases hv key b t x hold with ⟨hstore, hfree⟩ | ⟨w', hw', hw't⟩
    · refine .inl ⟨?_, fun w' hw' => hfree w' (mem_of_mem_filter hw')⟩
      rw [WriteCommit.over, if_neg (hfree w hw), hstore]
    · exact .inr ⟨w', mem_filter.mpr ⟨hw', by simpa [hw't] using ht⟩, hw't⟩

end View

namespace Backed

inductive Act
  | write (oset : ObjectSet) (wr : OSDWrite) (now : ℕ)
  | flush (op : Op)
  | commit (w : WriteCommit) (r : ℤ)

inductive Acts : Act → Backed → Backed → Prop
  | write {s : Backed} {c : Cacher} (oset : ObjectSet) (wr : OSDWrite) (now : ℕ) (hwr : wr.Ok)
      (hrun : s.cache.writex oset wr now = .ok c) :
      Acts (.write oset wr now) s { s with cache := c, written := wr.over s.written }
  | flush {s : Backed} {c : Cacher} (op : Op) (hop : op.Flushes) (hrun : s.cache.step op = .ok c) :
      Acts (.flush op) s { s with cache := c }
  | commit {s : Backed} {c : Cacher} (w : WriteCommit) (r : ℤ) (hw : w ∈ s.cache.writes)
      (hfirst : ∀ w' ∈ s.cache.writes, w'.key = w.key → w.tid ≤ w'.tid)
      (hrun : s.cache.bhWriteCommit w r = .ok c) :
      Acts (.commit w r) s { s with cache := c, store := if 0 ≤ r then w.over s.store else s.store }

def Act.Good : Act → Prop
  | .commit _ r => 0 ≤ r
  | _ => True

variable {s s' : Backed} {a : Act} {acts : List Act}

theorem Acts.step (h : Acts a s s') : Step s s' := by
  cases h with
  | write oset wr now hwr hrun => exact .writex oset wr now hwr hrun
  | flush op hop hrun => exact .flush op hop hrun
  | commit w r hw hfirst hrun => exact .commit w r hw hfirst hrun

structure Fine (s : Backed) : Prop extends s.Ok where
  tracks : s.cache.Tracks
  carried : s.cache.view.Carried s.store

theorem Acts.fine (h : Acts a s s') (ha : a.Good) (hs : s.Fine) : s'.Fine := by
  refine ⟨h.step.ok hs.toOk, ?_, ?_⟩
  · cases h with
    | write oset wr now hwr hrun => exact hs.tracks.writex hs.cache hwr hrun
    | flush op hop hrun => exact hs.tracks.flush hs.cache hop hrun
    | commit w r hw hfirst hrun => exact hs.tracks.commit hs.cache hrun
  · cases h with
    | write oset wr now hwr hrun =>
      exact writex_invariant hs.cache hwr hrun (fun _ _ _ _ _ _ hdo hv => hdo.carried_write hv)
        hs.carried
    | flush op hop hrun =>
      exact flush_invariant hop hs.cache hs.sound hrun
        (fun _ _ _ _ _ _ hdo _ hv => hdo.carried_send hv) hs.carried
    | commit w r hw hfirst hrun =>
      obtain ⟨copied, href⟩ := bhWriteCommit_refines hs.cache hs.sound hw hrun
      have hr : 0 ≤ r := ha
      simp only [if_pos hr]
      exact href.does.carried_commit hr hfirst hs.backs hs.carried

theorem fine_of_new {c} (hnew : c.New) (store : Content) : Fine ⟨c, fun _ _ => none, store⟩ := by
  refine ⟨ok_of_new hnew store, ⟨by simp [hnew.writes], by simp [hnew.writes]⟩, ?_⟩
  intro key b t x hx
  rw [View.hold, hnew.view_cell] at hx
  cases hx

variable {w w' : WriteCommit}

theorem Ok.write_unique (hs : s.Ok) (hw : w ∈ s.cache.writes) (hw' : w' ∈ s.cache.writes)
    (htid : w.tid = w'.tid) : w = w' := by
  have hnodup : (s.cache.writes.map WriteCommit.tid).Nodup :=
    pairwise_map.mpr (hs.sound.writes.imp fun h => h.ne)
  exact inj_on_of_nodup_map hnodup hw hw' htid

theorem Acts.mem_writes (h : Acts a s s') (hs : s.Ok) {w}
    (hw : w ∈ s.cache.writes) : w ∈ s'.cache.writes ∨ ∃ r, a = .commit w r := by
  cases h with
  | write oset wr now hwr hrun =>
    left
    refine writex_invariant (P := fun v => w ∈ v.writes) hs.cache hwr hrun ?_ hw
    intro key off data snapc v v' hdo hv
    rw [hdo.writes_eq]
    exact hv
  | flush op hop hrun =>
    left
    refine flush_invariant (P := fun v => w ∈ v.writes) hop hs.cache hs.sound hrun ?_ hw
    intro key start bl snapc v v' hdo _ hv
    rw [hdo.writes_eq]
    exact mem_append_left _ hv
  | commit w0 r hw0 hfirst hrun =>
    by_cases htid : w.tid = w0.tid
    · right
      exact ⟨r, by rw [hs.write_unique hw hw0 htid]⟩
    · left
      obtain ⟨copied, href⟩ := bhWriteCommit_refines hs.cache hs.sound hw0 hrun
      have hmem : w ∈ (s.cache.view.moved (.commit w0 r copied)).writes :=
        mem_filter.mpr ⟨hw, by simpa using htid⟩
      rwa [← href.does.writes_eq] at hmem

/-- The commits of an object come in order: with a later write an earlier one has committed. -/
theorem committed_of_later (h : Trace Acts s acts s') (hs : s.Ok) (hw : w ∈ s.cache.writes)
    (hlater : .commit w' r ∈ acts) (hkey : w'.key = w.key) (htid : w.tid ≤ w'.tid) :
    ∃ r, Act.commit w r ∈ acts := by
  induction h with
  | nil => cases hlater
  | @cons s t u a acts hact htail ih =>
    rcases hact.mem_writes hs hw with hstays | ⟨r', rfl⟩
    · rcases mem_cons.mp hlater with rfl | hlater
      · -- the later write commits, and this one is as old
        cases hact with
        | commit _ _ hw' hfirst hrun =>
          have hle := hfirst w hw hkey.symm
          have heq := hs.write_unique hw hw' (le_antisymm htid hle)
          exact ⟨r, by rw [heq]; exact mem_cons_self⟩
      · obtain ⟨r', hmem⟩ := ih (hact.step.ok hs) hstays hlater
        exact ⟨r', mem_cons_of_mem _ hmem⟩
    · exact ⟨r', mem_cons_self⟩

/-- The value `x` of a byte has been committed by one of the acts. -/
def Commits (acts : List Act) (key : Soid) (b : ℕ) (x : UInt8) : Prop :=
  ∃ w r, .commit w r ∈ acts ∧ 0 ≤ r ∧ w.Covers key b ∧ w.bl[b - w.start]? = some x

theorem Fine.stored_or_carried (hs : s.Fine) {key} {x}
    (hx : s.written key b = some x) (hclean : ∀ y, s.cache.view.hold key b ≠ some (.dirty y)) :
    s.store key b = some x ∨
      (∃ t, s.cache.view.hold key b = some (.tx t (some x))) ∧ ∃ w ∈ s.cache.writes,
        w.Covers key b ∧ w.bl[b - w.start]? = some x ∧ w.tid ≤ s.cache.lastSent key := by
  have hne : s.written key b ≠ none := by simp [hx]
  obtain ⟨h, hhold, hother⟩ := hs.backs.cached key b hne
  cases h with
  | dirty y => exact absurd hhold (hclean y)
  | other => exact absurd rfl hother
  | clean y =>
    obtain ⟨hval, hstore, -⟩ := hs.backs.clean key b y hhold hne
    left
    rw [hstore, ← hval, hx]
  | tx t y =>
    obtain ⟨hval, -, -, hcarries⟩ := hs.backs.tx key b t y hhold
    obtain rfl : y = some x := hval.symm.trans hx
    rcases hs.carried key b t _ hhold with ⟨hstore, -⟩ | ⟨w, hw, ht⟩
    · exact .inl hstore
    · obtain ⟨hcov, hbl⟩ := hcarries w hw ht
      refine .inr ⟨⟨t, hhold⟩, w, hw, hcov, hbl, ?_⟩
      rw [← hcov.1]
      exact hs.tracks.sent w hw

end Backed

namespace Cacher

/-- What a flush that led from `c` to `c'` waits for: a commit for each object. -/
def waits (c c' : Cacher) : List (Soid × ℕ) := c.dirtyObjects.map fun e => (e.1, c'.lastSent e.1)

theorem flushSet_hold {c c' : Cacher} {oset} {ctx : ℕ} (hc : c.Ok)
    (hrun : c.flushSet oset ctx = .ok c') {key} {t : ℕ} (hx : c'.view.hold key b = some (.tx t x)) :
    (∃ t, c.view.hold key b = some (.tx t x)) ∨ c.view.hold key b = some (.dirty x) := by
  have hop : Op.Flushes (.flushSet oset ctx) := trivial
  obtain ⟨ls, href, hls⟩ := flush_refines hop hc hrun
  have hback := href.trace.invariant (P := fun v =>
    (∀ t, v.hold key b = some (.tx t x) →
      (∃ t, c.view.hold key b = some (.tx t x)) ∨ c.view.hold key b = some (.dirty x)) ∧
    (v.hold key b = some (.dirty x) → c.view.hold key b = some (.dirty x))) ?_
    ⟨fun t ht => .inl ⟨t, ht⟩, id⟩
  · exact hback.1 t hx
  · rintro l hl v v' hdo ⟨htx, hdirty⟩
    have hsends := hls l hl
    cases l with
    | send key' start bl snapc =>
      obtain ⟨hin, hout⟩ := hdo.hold_send key b
      by_cases hr : (v.newWrite key' start bl snapc).Covers key b
      · obtain ⟨hold, hnew⟩ := hin hr
        rw [hnew]
        refine ⟨fun t ht => ?_, by simp⟩
        cases ht
        exact .inr (hdirty hold)
      · rw [hout hr]
        exact ⟨htx, hdirty⟩
    | _ => exact absurd hsends id

end Cacher

namespace Backed

variable {s s' : Backed} {acts : List Act} {c : Cacher} {oset : ObjectSet} {ctx : ℕ}

/-- When all the commits have come that a flush waits for, every byte written before the flush
has been committed. -/
theorem Fine.flushed (hs : s.Fine) (hflush : s.cache.flushSet oset ctx = .ok c)
    (hne : s.cache.objectsOf oset ≠ []) (hrun : Trace Acts { s with cache := c } acts s')
    (hgood : ∀ a ∈ acts, a.Good)
    (hwaits : ∀ p ∈ s.cache.waits c, ∃ w r, .commit w r ∈ acts ∧ w.key = p.1 ∧ w.tid = p.2)
    {key : Soid} {x : UInt8} (hx : s.written key b = some x) :
    s.store key b = some x ∨ Commits acts key b x := by
  have hact : Acts (.flush (.flushSet oset ctx)) s { s with cache := c } :=
    .flush (.flushSet oset ctx) trivial hflush
  have hs1 : Fine { s with cache := c } := hact.fine trivial hs
  obtain ⟨c', hflush', hno⟩ := flushSet_spec ctx hs.cache hne
  cases hflush'.symm.trans hflush
  rcases hs1.stored_or_carried hx (fun y => Cacher.NoDirty.hold hno) with
    hstore | ⟨⟨t, hhold⟩, w, hw, hcov, hbl, hle⟩
  · exact .inl hstore
  · right
    -- the object of the byte is one that the flush waits for
    have hbefore := flushSet_hold hs.cache hflush hhold
    obtain ⟨ob, hmem⟩ : ∃ ob, (key, ob) ∈ s.cache.dirtyObjects := by
      rcases hbefore with ⟨t', hold⟩ | hold
      all_goals
        obtain ⟨ob, hmem, -⟩ := mem_dirtyObjects hold (by simp) (by simp)
        exact ⟨ob, hmem⟩
    obtain ⟨w', r', hw', hkey, htid⟩ := hwaits _ (mem_map_of_mem hmem)
    obtain ⟨r, hr⟩ := committed_of_later hrun hs1.toOk hw hw' (hkey.trans hcov.1.symm)
      (by rw [htid]; exact hle)
    exact ⟨w, r, hr, hgood _ hr, hcov, hbl⟩

theorem Fine.stored_of_idle (hs : s.Fine) (hidle : s.cache.books.osetDirtyOrTx oset.id = 0)
    {key} (hkey : key ∈ s.cache.objectsOf oset) {x} (hx : s.written key b = some x) :
    s.store key b = some x := by
  have hrep := hs.cache.represented
  have hfree : ∀ h, s.cache.view.hold key b = some h → (∀ v, h ≠ .clean v) → h ≠ .other →
      False := by
    intro h hhold hheld hother
    obtain ⟨ob, hmem, e, he, hdirty⟩ := mem_dirtyObjects hhold hheld hother
    have hentry := mem_of_mem_filter hmem
    have hoset : ob.oset = oset.id := by
      obtain ⟨e', he', rfl⟩ := mem_map.mp hkey
      obtain ⟨hmem', hoset⟩ := mem_filter.mp he'
      have heq : e'.2 = ob := Option.some.inj
        ((find?_of_mem hmem').symm.trans (find?_of_mem hentry))
      simpa [heq] using hoset
    have hhead : (ob, e.2) ∈ s.cache.heads := mem_heads.mpr ⟨key, e.1, hentry, he⟩
    have hle := single_le_sum (l := s.cache.heads.map fun h =>
        if h.1.oset = oset.id ∧ h.2.isDirtyOrTx then (h.2.length : ℤ) else 0) ?_ _
      (mem_map_of_mem hhead)
    · rw [← hrep.oset, hidle] at hle
      have hpos := hrep.pos _ hhead
      simp only [hoset, hdirty, and_self, if_true] at hle hpos
      omega
    · intro n hn
      obtain ⟨h, -, rfl⟩ := mem_map.mp hn
      split_ifs <;> omega
  rcases hs.stored_or_carried hx (fun y hy => hfree _ hy (by simp) (by simp)) with
    hstore | ⟨⟨t, ht⟩, -⟩
  · exact hstore
  · exact (hfree _ ht (by simp) (by simp)).elim

end Backed

end CephDokan.ObjectCacher
