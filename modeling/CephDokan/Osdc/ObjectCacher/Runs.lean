import CephDokan.Osdc.ObjectCacher.ReadxRefinement

/-!
# Runs of the cache

Any sequence of operations, replies and commits from a new cache. Every state that it
reaches is in order: buffer heads and accounts are what they should be. The counters are
integers here; in the source they are as long as they do not overflow.
-/

namespace CephDokan.ObjectCacher

open Fallible Multiset

/-- What can happen to the cache. A reply or a commit is for the read or write of its number, if
this is in flight. `retry` is the list of waiting reads after `retry_waiting_reads` has taken some
off; the reads themselves are tried again by `readx`. -/
inductive Op
  | readx (oset : ObjectSet) (rd : OSDRead) (onfinish external : Bool)
  | retry (waiting : List ℕ)
  | writex (oset : ObjectSet) (wr : OSDWrite) (now : ℕ)
  | flushBh (key : Soid) (k cutoff : ℕ)
  | flushSet (oset : ObjectSet) (ctx : ℕ)
  | flushSetExtents (oset : ObjectSet) (exv : List ObjectExtent) (ctx : ℕ)
  | readFinish (tid : ℕ) (bl : Bytes) (r : ℤ)
  | writeCommit (tid : ℕ) (r : ℤ)
  | trimBh (key : Soid) (k : ℕ)
  | trimObject (key : Soid)
  | releaseSet (oset : ObjectSet)
  | releaseAll
  | purgeSet (oset : ObjectSet)
  | discardSet (oset : ObjectSet) (exls : List ObjectExtent)
  | clearNonexistence (oset : ObjectSet)

def Op.Ok : Op → Prop
  | writex _ wr _ => wr.Ok
  | _ => True

/-- `bh_write` of one dirty head, or of those of an object set. -/
def Op.Flushes : Op → Prop
  | flushBh _ _ _ | flushSet _ _ | flushSetExtents _ _ _ => True
  | _ => False

def Op.Takes : Op → Label → Prop
  | readx _ _ _ _, l => l.Reads
  | retry _, _ => False
  | writex _ wr _, l => ∃ ex ∈ wr.extents, l = Cacher.writeLabel wr ex
  | flushBh _ _ _, l | flushSet _ _, l | flushSetExtents _ _ _, l => l.Sends
  | readFinish tid _ r, l => ∃ rd absent, rd.tid = tid ∧ l = .reply rd r absent
  | writeCommit tid r, l => ∃ w copied, w.tid = tid ∧ l = .commit w r copied
  | trimBh key _, l => l = .trim key
  | trimObject key, l => l = .close key
  | releaseSet _, l | releaseAll, l => ∃ key, l = .release key ∨ l = .close key
  | purgeSet _, l => ∃ key, l = .purge key
  | discardSet _ _, l => ∃ key, l = .discard key
  | clearNonexistence _, l => ∃ key, l = .clear key

namespace Cacher

def step (c : Cacher) : Op → Run Cacher
  | .readx oset rd onfinish external => do
    let (c, _, _) ← c.readx oset rd onfinish external
    return c
  | .retry waiting => .ok { c with waitforRead := waiting }
  | .writex oset wr now => c.writex oset wr now
  | .flushBh key k cutoff => c.flushBh key k cutoff
  | .flushSet oset ctx => c.flushSet oset ctx
  | .flushSetExtents oset exv ctx => c.flushSetExtents oset exv ctx
  | .readFinish tid bl r =>
    match c.reads.find? fun rd => rd.tid = tid with
    | some rd => c.bhReadFinish rd bl r
    | none => .ok c
  | .writeCommit tid r =>
    match c.writes.find? fun w => w.tid = tid with
    | some w => c.bhWriteCommit w r
    | none => .ok c
  | .trimBh key k => c.trimBh key k
  | .trimObject key => c.trimObject key
  | .releaseSet oset => c.releaseSet oset
  | .releaseAll => c.releaseAll
  | .purgeSet oset => c.purgeSet oset
  | .discardSet oset exls => c.discardSet oset exls
  | .clearNonexistence oset => c.clearNonexistence oset

/-- The cache after the operations `ops`. -/
def run (c : Cacher) (ops : List Op) : Run Cacher := ops.foldlM step c

/-- Every operation of the run meets `P` in the state in which it happens. -/
def RunMeets (P : Cacher → Op → Prop) (c : Cacher) : List Op → Prop
  | [] => True
  | op :: ops => P c op ∧ ∀ c', c.step op = .ok c' → RunMeets P c' ops

structure New (c : Cacher) : Prop where
  books : c.books = {}
  objects : c.objects = ∅
  reads : c.reads = []
  writes : c.writes = []
  calls : c.calls = []

variable {c c' : Cacher} {op : Op} {ops : List Op}

theorem New.ok (h : c.New) : c.Ok := ok_new h.books h.objects

theorem New.sound (h : c.New) : c.view.Sound := by
  have hfind : ∀ key, c.objects.find? key = none := by
    intro key
    rw [h.objects]
    rfl
  constructor
  · intro key
    simp [view, hfind, h.writes]
  · simp [view, h.writes]
  · simp [view, h.writes]
  · simp [view, h.reads]
  · simp [view, h.reads]
  · intro key b tid hrx
    simp [view, cell, hfind] at hrx
  · simp [view, h.reads]

variable {P : Cacher → Prop}

theorem flush_keeps (hsend : ∀ c c' key k, c.bhWrite key k = .ok c' → P c → P c')
    (hwait : ∀ c c' ctx key, c.waitObject ctx key = .ok c' → P c → P c') (hop : op.Flushes)
    (hc : c.Ok) (hrun : c.step op = .ok c') (h : P c) : Flushed c c' ∧ P c' := by
  have hok : ∀ d, Flushed c d ∧ P d → d.Ok := fun d hd => hd.1.ok
  have hsend' : ∀ d d' key k, d.SendsDirty key k d' → Flushed c d ∧ P d → Flushed c d' ∧ P d' :=
    fun d d' key k hs hd => ⟨hd.1.send hs, hsend d d' key k hs.run hd.2⟩
  have hwait' : ∀ d d' ctx key, d.waitObject ctx key = .ok d' → Flushed c d ∧ P d →
      Flushed c d' ∧ P d' := fun d d' ctx key hw hd => ⟨hd.1.wait hw, hwait d d' ctx key hw hd.2⟩
  have hstart : Flushed c c ∧ P c := ⟨.refl hc, h⟩
  cases op with
  | flushBh key k cutoff => exact flushBh_keeps hsend' hrun hstart
  | flushSet oset ctx => exact flushSet_keeps hok hsend' hwait' hrun hstart
  | flushSetExtents oset exv ctx => exact flushSetExtents_keeps hsend' hwait' hrun hstart
  | _ => exact absurd hop id

theorem flush_refines (hop : op.Flushes) (hc : c.Ok) (hrun : c.step op = .ok c') : Flushed c c' :=
  (flush_keeps (P := fun _ => True) (fun _ _ _ _ _ h => h) (fun _ _ _ _ _ h => h) hop hc hrun
    trivial).1

theorem flush_invariant {P : View → Prop} (hop : op.Flushes) (hc : c.Ok) (hs : c.view.Sound)
    (hrun : c.step op = .ok c') (hsend : ∀ key start bl snapc v v',
      View.Does (.send key start bl snapc) v v' → v.Sound → P v → P v')
    (h : P c.view) : P c'.view := by
  obtain ⟨ls, href, hls⟩ := flush_refines hop hc hrun
  refine (href.trace.invariant (P := fun v => v.Sound ∧ P v) ?_ ⟨hs, h⟩).2
  intro l hl v v' hdo ⟨hsound, hv⟩
  have hsends := hls l hl
  cases l with
  | send key start bl snapc => exact ⟨hdo.sound hsound, hsend _ _ _ _ v v' hdo hsound hv⟩
  | _ => exact absurd hsends id

theorem writex_keeps {oset} {wr} {now : ℕ}
    (hstep : ∀ d d' ex, d.Ok → ex ∈ wr.extents → d.writeObject oset wr now ex = .ok d' → P d → P d')
    (hc : c.Ok) (hwr : wr.Ok) (hrun : c.writex oset wr now = .ok c') (h : P c) : P c' := by
  have hloop : ∀ (exs : List ObjectExtent) (d : Cacher), (∀ ex ∈ exs, ex ∈ wr.extents) → d.Ok →
      P d → d.writexLoop oset wr now exs = .ok c' → P c' := by
    intro exs
    induction exs with
    | nil =>
      intro d _ _ hd hrun
      cases hrun
      exact hd
    | cons ex exs ih =>
      intro d hsub hok hd hrun
      obtain ⟨d', hone, hrun⟩ := bind_eq_ok.mp hrun
      obtain ⟨hex, hsub⟩ := List.forall_mem_cons.mp hsub
      exact ih d' hsub (writeObject_refines hok hwr hex hone).ok
        (hstep d d' ex hok hex hone hd) hrun
  exact hloop wr.extents c (fun _ hex => hex) hc h hrun

theorem step_refines (hc : c.Ok) (hs : c.view.Sound) (hop : op.Ok) (hrun : c.step op = .ok c') :
    Steps op.Takes c c' := by
  cases op with
  | readx oset rd onfinish external =>
    obtain ⟨⟨c1, ret, bl⟩, hread, hrun⟩ := bind_eq_ok.mp hrun
    cases hrun
    exact readx_refines hc hread
  | retry waiting =>
    cases hrun
    exact .unseen (.unseen (hc.others rfl rfl) rfl)
  | writex oset wr now =>
    refine ⟨_, writex_refines hc hop hrun, ?_⟩
    intro l hl
    obtain ⟨ex, hex, rfl⟩ := List.mem_map.mp hl
    exact ⟨ex, hex, rfl⟩
  | flushBh key k cutoff =>
    exact flush_refines (show Op.Flushes (.flushBh key k cutoff) from trivial) hc hrun
  | flushSet oset ctx =>
    exact flush_refines (show Op.Flushes (.flushSet oset ctx) from trivial) hc hrun
  | flushSetExtents oset exv ctx =>
    exact flush_refines (show Op.Flushes (.flushSetExtents oset exv ctx) from trivial) hc hrun
  | readFinish tid bl r =>
    unfold step at hrun
    simp only at hrun
    split at hrun
    · next rd hrd =>
      obtain ⟨absent, href⟩ := bhReadFinish_refines hc (List.mem_of_find?_eq_some hrd) hrun
      have htid : rd.tid = tid := by simpa using List.find?_some hrd
      exact .single href ⟨rd, absent, htid, rfl⟩
    · cases hrun
      exact .refl hc
  | writeCommit tid r =>
    unfold step at hrun
    simp only at hrun
    split at hrun
    · next w hw =>
      obtain ⟨copied, href⟩ := bhWriteCommit_refines hc hs (List.mem_of_find?_eq_some hw) hrun
      have htid : w.tid = tid := by simpa using List.find?_some hw
      exact .single href ⟨w, copied, htid, rfl⟩
    · cases hrun
      exact .refl hc
  | trimBh key k => exact trimBh_refines hc hrun
  | trimObject key => exact trimObject_refines hc hrun
  | releaseSet oset => exact release_all_refines hc hrun
  | releaseAll => exact release_all_refines hc hrun
  | purgeSet oset =>
    refine ⟨_, purgeSet_refines hc hrun, ?_⟩
    intro l hl
    obtain ⟨key, -, rfl⟩ := List.mem_map.mp hl
    exact ⟨key, rfl⟩
  | discardSet oset exls => exact discardSet_refines hc hrun
  | clearNonexistence oset => exact clearNonexistence_refines hc hrun

theorem run_refines (hc : c.Ok) (hs : c.view.Sound) (hops : ∀ op ∈ ops, op.Ok)
    (hrun : c.run ops = .ok c') : (∃ ls, Refines c ls c') ∧ c'.view.Sound := by
  refine foldlM_invariant (P := fun d => (∃ ls, Refines c ls d) ∧ d.view.Sound) hrun ?_
    ⟨⟨[], Refines.refl hc⟩, hs⟩
  intro op hop d d' ⟨⟨ls, href⟩, hsound⟩ hstep
  obtain ⟨ls', href', -⟩ := step_refines href.ok hsound (hops op hop) hstep
  exact ⟨⟨_, href.trans href'⟩, href'.sound hsound⟩

theorem run_ghost {γ : Type} {P} {Q : Cacher → γ → Prop} (move : γ → Op → γ)
    {g : γ} (hc : c.Ok) (hs : c.view.Sound) (hops : ∀ op ∈ ops, op.Ok) (hmeets : RunMeets P c ops)
    (hrun : c.run ops = .ok c')
    (hstep : ∀ c c' g op, c.Ok → c.view.Sound → op.Ok → P c op → Q c g → c.step op = .ok c' →
      Q c' (move g op)) (hQ : Q c g) : Q c' (ops.foldl move g) := by
  induction ops generalizing c g with
  | nil =>
    cases hrun
    exact hQ
  | cons op ops ih =>
    obtain ⟨hop, hops⟩ := List.forall_mem_cons.mp hops
    rw [run, List.foldlM_cons] at hrun
    obtain ⟨c1, hone, hrun⟩ := bind_eq_ok.mp hrun
    obtain ⟨ls, href, -⟩ := step_refines hc hs hop hone
    exact ih href.ok (href.sound hs) hops (hmeets.2 c1 hone) hrun
      (hstep c c1 g op hc hs hop hmeets.1 hQ hone)

theorem New.view_cell (h : c.New) (key : Soid) (b : ℕ) : c.view.cell key b = none := by
  simp [view, cell, h.objects, show (∅ : SortedMap Soid Object).find? key = none from rfl]

def heads (c : Cacher) : List (Object × BufferHead) :=
  c.objects.entries.flatMap fun e => e.2.data.entries.map fun h => (e.2, h.2)

/-- What `audit_buffers` and `verify_stats` check, and more: the arrangement of the buffer heads
of each object, and the accounts as sums and sets over all buffer heads. -/
structure Represented (c : Cacher) : Prop where
  keyed : ∀ e ∈ c.objects.entries, ∀ h ∈ e.2.data.entries, h.2.start = h.1
  pos : ∀ h ∈ c.heads, 0 < h.2.length
  disjoint : ∀ e ∈ c.objects.entries, e.2.data.entries.Pairwise fun h h' => h.2.stop ≤ h'.2.start
  waiters : ∀ h ∈ c.heads, ∀ w ∈ h.2.waitforRead.entries, h.2.start ≤ w.1 ∧ w.1 < h.2.stop
  filled : ∀ h ∈ c.heads, h.2.state = .clean ∨ h.2.state = .dirty ∨ h.2.state = .tx →
    h.2.bl.length = h.2.length
  stat : ∀ st, c.books.stat st =
    (c.heads.map fun h => if h.2.state = st then (h.2.length : ℤ) else 0).sum
  object : ∀ e ∈ c.objects.entries, e.2.dirtyOrTx =
    (e.2.data.entries.map fun h => if h.2.isDirtyOrTx then (h.2.length : ℤ) else 0).sum
  oset : ∀ o, c.books.osetDirtyOrTx o =
    (c.heads.map fun h => if h.1.oset = o ∧ h.2.isDirtyOrTx then (h.2.length : ℤ) else 0).sum
  dirtyOrTxBh : ∀ id, id ∈ c.books.dirtyOrTxBh ↔ ∃ h ∈ c.heads, h.2.id = id ∧ h.2.isDirtyOrTx
  lruDirty : ∀ id, c.books.bhLru id = some .dirty ↔ ∃ h ∈ c.heads, h.2.id = id ∧ h.2.state = .dirty
  distinct : (c.heads.map fun h => h.2.id).Nodup

theorem mem_heads {h} : h ∈ c.heads ↔
    ∃ key k, (key, h.1) ∈ c.objects.entries ∧ (k, h.2) ∈ h.1.data.entries := by
  simp only [heads, List.mem_flatMap, List.mem_map]
  constructor
  · rintro ⟨⟨key, ob⟩, he, ⟨k, bh⟩, hh, rfl⟩
    exact ⟨key, k, he, hh⟩
  · rintro ⟨key, k, he, hh⟩
    exact ⟨(key, h.1), he, (k, h.2), hh, rfl⟩

theorem allItems_eq (c : Cacher) :
    allItems c.objects.entries = (c.heads.map fun h => h.2.item h.1.oset : List Item) := by
  unfold heads
  induction c.objects.entries with
  | nil => rfl
  | cons e l ih =>
    rw [List.flatMap_cons, List.map_append, ← coe_add, ← ih]
    simp [allItems, itemsOf, Function.comp_def]

theorem Ok.represented (hc : c.Ok) : c.Represented := by
  have hbooks := hc.books
  rw [allItems_eq] at hbooks
  have hentry : ∀ h ∈ c.heads, ∃ k, EntryOk (k, h.2) ∧ h.2.Filled := by
    intro h hh
    obtain ⟨key, k, he, hk⟩ := mem_heads.mp hh
    exact ⟨k, (hc.object _ he).shape.entry _ hk, (hc.object _ he).filled _ hk⟩
  constructor
  · intro e he h hh
    exact ((hc.object e he).shape.entry h hh).start
  · intro h hh
    obtain ⟨k, hok, -⟩ := hentry h hh
    exact hok.pos
  · intro e he
    have hshape := (hc.object e he).shape
    refine hshape.ordered.imp_of_mem ?_
    intro h h' hh hh' hle
    rw [(hshape.entry h hh).stop, (hshape.entry h' hh').start]
    exact hle
  · intro h hh w hw
    obtain ⟨k, hok, -⟩ := hentry h hh
    rw [hok.stop, hok.start]
    exact hok.waiters w hw
  · intro h hh hstate
    obtain ⟨k, -, hfilled⟩ := hentry h hh
    unfold BufferHead.Filled at hfilled
    rcases hstate with hstate | hstate | hstate
    all_goals rwa [hstate] at hfilled
  · intro st
    rw [hbooks.stat st, map_coe, sum_coe, List.map_map]
    rfl
  · intro e he
    exact (hc.object e he).dirty
  · intro o
    rw [hbooks.oset o, map_coe, sum_coe, List.map_map]
    rfl
  · intro id
    rw [hbooks.dirtyBh id]
    simp [BufferHead.item_dirtyOrTx]
  · intro id
    rw [hbooks.lru id]
    simp [BufferHead.item_lru, BufferHead.lru]
  · have hnodup := hbooks.nodup
    rwa [map_coe, coe_nodup, List.map_map] at hnodup

/-- Whatever happens to the cache, its representation stays in order. -/
theorem run_represented (hnew : c.New) (hops : ∀ op ∈ ops, op.Ok) (hrun : c.run ops = .ok c') :
    c'.Represented := by
  obtain ⟨⟨ls, href⟩, -⟩ := run_refines hnew.ok hnew.sound hops hrun
  exact href.ok.represented

/-- A read that a write cuts in two, two flushes with an overwrite in between, an error, and
then everything is thrown away. -/
theorem run_represented_overwritten :
    let oset : ObjectSet := ⟨0, 0, 0, false⟩
    let ex : ℕ → ℕ → ObjectExtent := fun off len => ⟨"1.00000000", 0, off, len, 0, 0, [(0, len)]⟩
    let c : Cacher := { maxSize := 16, maxObjects := 0 }
    let ops : List Op := [
      .readx oset { id := 1, extents := [ex 0 10], snap := cephNosnap } true true,
      .writex oset ⟨[ex 3 2], ⟨1, [1]⟩, [5, 7], false⟩ 0,
      .readFinish 1 [1, 2, 3, 4, 5, 6, 7, 8, 9, 10] 10, .flushSet oset 0,
      .writex oset ⟨[ex 4 2], ⟨1, [1]⟩, [8, 9], false⟩ 0, .writeCommit 1 0,
      .discardSet oset [ex 8 1], .flushSetExtents oset [ex 0 10] 0, .writeCommit 2 (-5),
      .releaseSet oset, .purgeSet oset,
      .trimObject (soid 0 "1.00000000" cephNosnap)]
    ∃ c', c.run ops = .ok c' ∧ c'.Represented := by
  intro oset ex c ops
  have hok : (c.run ops).isOk = true := by decide +kernel
  obtain ⟨c', hrun⟩ := Fallible.exists_of_isOk hok
  refine ⟨c', hrun, run_represented ⟨rfl, rfl, rfl, rfl, rfl⟩ ?_ hrun⟩
  simp only [ops, List.forall_mem_cons, Op.Ok, true_and, and_true, List.not_mem_nil, false_imp_iff,
    implies_true]
  constructor <;> constructor <;> decide

end Cacher

end CephDokan.ObjectCacher
