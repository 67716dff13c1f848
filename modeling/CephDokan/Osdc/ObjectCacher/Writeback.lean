import CephDokan.Osdc.ObjectCacher.Runs

/-!
# Writeback loses no dirty byte

The cache together with the store behind it: writes go into the cache, flushes send what is
dirty, and commits come back in the order of their numbers for each object, with an error or
without. What the store holds is what commits have brought it.
-/

namespace CephDokan.ObjectCacher

open Fallible List

inductive Hold
  | dirty (x : Option UInt8)
  | tx (tid : ℕ) (x : Option UInt8)
  | clean (x : Option UInt8)
  | other
  deriving DecidableEq

def Cell.hold : Cell → Hold
  | .dirty x _ => .dirty x
  | .tx tid x _ => .tx tid x
  | .clean x => .clean x
  | _ => .other

theorem Cell.hold_forget (x : Cell) : x.forget.hold = x.hold := by
  cases x <;> rfl

abbrev Content := Soid → ℕ → Option UInt8

/-- The content after `data` has been put at `off`. -/
def Content.put (g : Content) (key : Soid) (off : ℕ) (data : Bytes) : Content := fun key' b =>
  if key' = key ∧ off ≤ b ∧ b < off + data.length then data[b - off]? else g key' b

def Label.put (g : Content) : Label → Content
  | .write key off data _ => g.put key off data
  | _ => g

/-- The values written last, after the write `wr`. -/
def OSDWrite.over (wr : OSDWrite) (g : Content) : Content :=
  wr.extents.foldl (fun g ex => g.put (Cacher.writeKey ex) ex.offset (wr.dataOf ex)) g

def WriteCommit.Covers (w : WriteCommit) (key : Soid) (b : ℕ) : Prop :=
  w.key = key ∧ w.start ≤ b ∧ b < w.start + w.length

instance WriteCommit.decidableCovers (w : WriteCommit) (key : Soid) (b : ℕ) :
    Decidable (w.Covers key b) :=
  inferInstanceAs (Decidable (_ ∧ _ ∧ _))

/-- The store after the write `w`. -/
def WriteCommit.over (w : WriteCommit) (store : Content) : Content := fun key b =>
  if w.Covers key b then w.bl[b - w.start]? else store key b

namespace View

def hold (v : View) (key : Soid) (b : ℕ) : Option Hold := (v.cell key b).map Cell.hold

/-- What ties the cache to the values written last and to the store: a byte that is dirty or on
its way has its last value, the newest write in flight with the byte is the one it waits for, and
a clean byte is in the store and in no write in flight. -/
structure Backs (v : View) (written store : Content) : Prop where
  dirty : ∀ key b x, v.hold key b = some (.dirty x) → written key b = x
  tx : ∀ key b t x, v.hold key b = some (.tx t x) → written key b = x ∧ t ≤ v.lastTid ∧
    (∀ w ∈ v.writes, w.Covers key b → w.tid ≤ t) ∧
    ∀ w ∈ v.writes, w.tid = t → w.Covers key b ∧ w.bl[b - w.start]? = x
  clean : ∀ key b x, v.hold key b = some (.clean x) → written key b ≠ none →
    written key b = x ∧ store key b = x ∧ ∀ w ∈ v.writes, ¬w.Covers key b
  cached : ∀ key b, written key b ≠ none → ∃ h, v.hold key b = some h ∧ h ≠ .other

variable {v v' : View} {written store : Content} {key : Soid} {snapc : SnapContext}

theorem Does.backs_write {off : ℕ} {data}
    (h : Does (.write key off data snapc) v v') (hb : v.Backs written store) :
    v'.Backs (written.put key off data) store := by
  have hwrites : v'.writes = v.writes := h.writes_eq
  have hlast : v'.lastTid = v.lastTid := h.lastTid_eq
  have hin : ∀ b, off ≤ b ∧ b < off + data.length →
      v'.hold key b = some (.dirty data[b - off]?) := by
    intro b hr
    obtain ⟨s, hs⟩ := (h.here b).1 hr
    have hcell : v'.cell key b = _ := hs
    rw [hold, hcell]
    rfl
  have hout : ∀ key' b, ¬(key' = key ∧ off ≤ b ∧ b < off + data.length) →
      v'.hold key' b = v.hold key' b := by
    intro key' b hr
    by_cases hkey : key' = key
    · subst hkey
      have hforget := (h.here b).2.1 (fun hc => hr ⟨rfl, hc⟩)
      have heq := congrArg (Option.map Cell.hold) hforget
      simp only [Option.map_map, Function.comp_def, Cell.hold_forget] at heq
      exact heq
    · rw [hold, hold, h.elsewhere key' hkey]
  have hfresh : ∀ key' b (hr : key' = key ∧ off ≤ b ∧ b < off + data.length) a,
      v'.hold key' b = some a → a = .dirty data[b - off]? := by
    rintro key' b ⟨rfl, hr⟩ a ha
    rw [hin b hr] at ha
    exact (Option.some.inj ha).symm
  constructor
  · intro key' b x hx
    unfold Content.put
    split_ifs with hr
    · cases hfresh key' b hr _ hx
      rfl
    · exact hb.dirty key' b x (hout key' b hr ▸ hx)
  · intro key' b t x hx
    by_cases hr : key' = key ∧ off ≤ b ∧ b < off + data.length
    · cases hfresh key' b hr _ hx
    · rw [hwrites, hlast, Content.put, if_neg hr]
      exact hb.tx key' b t x (hout key' b hr ▸ hx)
  · intro key' b x hx hne
    by_cases hr : key' = key ∧ off ≤ b ∧ b < off + data.length
    · cases hfresh key' b hr _ hx
    · simp only [Content.put, if_neg hr] at hne ⊢
      rw [hwrites]
      exact hb.clean key' b x (hout key' b hr ▸ hx) hne
  · intro key' b hne
    by_cases hr : key' = key ∧ off ≤ b ∧ b < off + data.length
    · obtain ⟨rfl, hr⟩ := hr
      exact ⟨_, hin b hr, by simp⟩
    · simp only [Content.put, if_neg hr] at hne
      rw [hout key' b hr]
      exact hb.cached key' b hne

section

variable {start : ℕ} {bl : Bytes} (h : Does (.send key start bl snapc) v v')

include h

theorem Does.hold_send (key' : Soid) (b : ℕ) : ((v.newWrite key start bl snapc).Covers key' b →
      v.hold key' b = some (.dirty bl[b - start]?) ∧
      v'.hold key' b = some (.tx (v.lastTid + 1) bl[b - start]?)) ∧
    (¬(v.newWrite key start bl snapc).Covers key' b → v'.hold key' b = v.hold key' b) := by
  by_cases hkey : key' = key
  · subst hkey
    have hhere := h.here b
    simp only [Local, Label.key] at hhere
    refine ⟨?_, ?_⟩
    · intro hr
      have hin : start ≤ b ∧ b < start + bl.length := hr.2
      rw [if_pos hin] at hhere
      rw [hold, hold, hhere.1, hhere.2]
      exact ⟨rfl, rfl⟩
    · intro hr
      have hout : ¬(start ≤ b ∧ b < start + bl.length) := fun hc => hr ⟨rfl, hc⟩
      rw [if_neg hout] at hhere
      rw [hold, hold, hhere]
  · refine ⟨fun hr => absurd hr.1.symm hkey, fun _ => ?_⟩
    rw [hold, hold, h.elsewhere key' hkey]

theorem Does.backs_send (hs : v.Sound) (hb : v.Backs written store) : v'.Backs written store := by
  have hwrites : v'.writes = v.writes ++ [v.newWrite key start bl snapc] := h.writes_eq
  have hlast : v'.lastTid = v.lastTid + 1 := h.lastTid_eq
  have hhold := h.hold_send
  have htid : (v.newWrite key start bl snapc).tid = v.lastTid + 1 := rfl
  have hbl : ∀ b, (v.newWrite key start bl snapc).bl[b - (v.newWrite key start bl snapc).start]? =
      bl[b - start]? := fun _ => rfl
  generalize v.newWrite key start bl snapc = w at hwrites hhold htid hbl
  constructor
  · intro key' b x hx
    by_cases hr : w.Covers key' b
    · rw [((hhold key' b).1 hr).2] at hx
      cases hx
    · exact hb.dirty key' b x ((hhold key' b).2 hr ▸ hx)
  · intro key' b t x hx
    rw [hwrites, hlast]
    by_cases hr : w.Covers key' b
    · obtain ⟨hdirty, htx⟩ := (hhold key' b).1 hr
      rw [htx] at hx
      cases hx
      refine ⟨hb.dirty _ b _ hdirty, le_rfl, ?_, ?_⟩
      · intro w' hw' _
        rcases mem_append.mp hw' with hw' | hw'
        · exact (hs.lastTid w' hw').trans (Nat.le_succ _)
        · rw [mem_singleton.mp hw', htid]
      · intro w' hw' htid'
        rcases mem_append.mp hw' with hw' | hw'
        · have := hs.lastTid w' hw'
          omega
        · rw [mem_singleton.mp hw']
          exact ⟨hr, hbl b⟩
    · obtain ⟨hval, hle, hnewest, hcarries⟩ := hb.tx key' b t x ((hhold key' b).2 hr ▸ hx)
      refine ⟨hval, hle.trans (Nat.le_succ _), ?_, ?_⟩
      · intro w' hw' hcov
        rcases mem_append.mp hw' with hw' | hw'
        · exact hnewest w' hw' hcov
        · rw [mem_singleton.mp hw'] at hcov
          exact absurd hcov hr
      · intro w' hw' htid'
        rcases mem_append.mp hw' with hw' | hw'
        · exact hcarries w' hw' htid'
        · rw [mem_singleton.mp hw'] at htid'
          omega
  · intro key' b x hx hne
    by_cases hr : w.Covers key' b
    · rw [((hhold key' b).1 hr).2] at hx
      cases hx
    · obtain ⟨hval, hstore, hfree⟩ := hb.clean key' b x ((hhold key' b).2 hr ▸ hx) hne
      refine ⟨hval, hstore, ?_⟩
      intro w' hw'
      rw [hwrites] at hw'
      rcases mem_append.mp hw' with hw' | hw'
      · exact hfree w' hw'
      · rw [mem_singleton.mp hw']
        exact hr
  · intro key' b hne
    by_cases hr : w.Covers key' b
    · exact ⟨_, ((hhold key' b).1 hr).2, by simp⟩
    · rw [(hhold key' b).2 hr]
      exact hb.cached key' b hne

end

section

variable {w : WriteCommit} {r : ℤ} {copied : Bool} (h : Does (.commit w r copied) v v')

include h

theorem Does.hold_commit (key : Soid) (b : ℕ) :
    v'.hold key b = v.hold key b ∨ ∃ x, v.hold key b = some (.tx w.tid x) ∧
      (0 ≤ r ∧ v'.hold key b = some (.clean x) ∨ r < 0 ∧ v'.hold key b = some (.dirty x)) := by
  by_cases hkey : key = w.key
  · subst hkey
    have hhere := h.here b
    simp only [Local, Label.key] at hhere
    unfold hold
    generalize v.cell w.key b = old at hhere ⊢
    generalize v'.cell w.key b = new at hhere ⊢
    cases hhere with
    | keep => exact .inl rfl
    | clean x s hr => exact .inr ⟨x, rfl, .inl ⟨hr, rfl⟩⟩
    | again x s hr => exact .inr ⟨x, rfl, .inr ⟨hr, rfl⟩⟩
  · refine .inl ?_
    rw [hold, hold, h.elsewhere key hkey]

theorem Does.backs_commit (hfirst : ∀ w' ∈ v.writes, w'.key = w.key → w.tid ≤ w'.tid)
    (hb : v.Backs written store) : v'.Backs written (if 0 ≤ r then w.over store else store) := by
  have hw : w ∈ v.writes := h.ready
  have hwrites : v'.writes = v.writes.filter fun w' => w'.tid ≠ w.tid := h.writes_eq
  have hlast : v'.lastTid = v.lastTid := h.lastTid_eq
  have hsub : ∀ w' ∈ v'.writes, w' ∈ v.writes ∧ w'.tid ≠ w.tid := by
    intro w' hw'
    rw [hwrites] at hw'
    simpa using hw'
  constructor
  · intro key b x hx
    rcases h.hold_commit key b with heq | ⟨y, hold, ⟨-, hnew⟩ | ⟨-, hnew⟩⟩
    · exact hb.dirty key b x (heq ▸ hx)
    · rw [hnew] at hx
      cases hx
    · rw [hnew] at hx
      cases hx
      exact (hb.tx key b w.tid _ hold).1
  · intro key b t x hx
    rcases h.hold_commit key b with heq | ⟨y, hold, ⟨-, hnew⟩ | ⟨-, hnew⟩⟩
    · obtain ⟨hval, hle, hnewest, hcarries⟩ := hb.tx key b t x (heq ▸ hx)
      rw [hlast]
      exact ⟨hval, hle, fun w' hw' => hnewest w' (hsub w' hw').1,
        fun w' hw' => hcarries w' (hsub w' hw').1⟩
    all_goals
      rw [hnew] at hx
      cases hx
  · intro key b x hx hne
    rcases h.hold_commit key b with heq | ⟨y, hold, ⟨hr, hnew⟩ | ⟨-, hnew⟩⟩
    · -- a byte that was clean is in no write, so not in this one
      obtain ⟨hval, hstore, hfree⟩ := hb.clean key b x (heq ▸ hx) hne
      refine ⟨hval, ?_, fun w' hw' => hfree w' (hsub w' hw').1⟩
      split_ifs
      · rw [WriteCommit.over, if_neg (hfree w hw), hstore]
      · exact hstore
    · -- a byte that becomes clean has come with this write and is in no later one
      obtain ⟨hval, -, hnewest, hcarries⟩ := hb.tx key b w.tid y hold
      obtain ⟨hcov, hbl⟩ := hcarries w hw rfl
      rw [hnew] at hx
      cases hx
      rw [if_pos hr]
      refine ⟨hval, ?_, ?_⟩
      · rw [WriteCommit.over, if_pos hcov, hbl]
      · intro w' hw' hcov'
        obtain ⟨hmem, hne'⟩ := hsub w' hw'
        have hle := hnewest w' hmem hcov'
        have hge := hfirst w' hmem (hcov'.1.trans hcov.1.symm)
        omega
    · rw [hnew] at hx
      cases hx
  · intro key b hne
    rcases h.hold_commit key b with heq | ⟨y, -, ⟨-, hnew⟩ | ⟨-, hnew⟩⟩
    · rw [heq]
      exact hb.cached key b hne
    · exact ⟨_, hnew, by simp⟩
    · exact ⟨_, hnew, by simp⟩

end

end View

/-- The cache, the value written last through the cache for each byte, and the store. -/
structure Backed where
  cache : Cacher
  written : Content
  store : Content

/-- A commit is that of the oldest write in flight of its object; the store has taken the write
if there was no error. -/
inductive Backed.Step : Backed → Backed → Prop
  | writex {s : Backed} {c : Cacher} (oset : ObjectSet) (wr : OSDWrite) (now : ℕ) (hwr : wr.Ok)
      (hrun : s.cache.writex oset wr now = .ok c) :
      Step s { s with cache := c, written := wr.over s.written }
  | flush {s : Backed} {c : Cacher} (op : Op) (hop : op.Flushes) (hrun : s.cache.step op = .ok c) :
      Step s { s with cache := c }
  | commit {s : Backed} {c : Cacher} (w : WriteCommit) (r : ℤ) (hw : w ∈ s.cache.writes)
      (hfirst : ∀ w' ∈ s.cache.writes, w'.key = w.key → w.tid ≤ w'.tid)
      (hrun : s.cache.bhWriteCommit w r = .ok c) :
      Step s { s with cache := c, store := if 0 ≤ r then w.over s.store else s.store }

namespace Backed

structure Ok (s : Backed) : Prop where
  cache : s.cache.Ok
  sound : s.cache.view.Sound
  backs : s.cache.view.Backs s.written s.store

theorem Step.ok {s s'} (h : Step s s') (hs : s.Ok) : s'.Ok := by
  cases h with
  | writex oset wr now hwr hrun =>
    have href := Cacher.writex_refines hs.cache hwr hrun
    refine ⟨href.ok, href.sound hs.sound, ?_⟩
    -- one extent after the other
    have hghost := Trace.ghost (P := fun v g => View.Backs v g s.store) Label.put href.trace ?_
      hs.backs
    · rw [foldl_map] at hghost
      exact hghost
    · intro l hl v v' g hdo hv
      obtain ⟨ex, -, rfl⟩ := mem_map.mp hl
      exact hdo.backs_write hv
  | flush op hop hrun =>
    obtain ⟨ls, href, -⟩ := Cacher.flush_refines hop hs.cache hrun
    refine ⟨href.ok, href.sound hs.sound, ?_⟩
    exact Cacher.flush_invariant hop hs.cache hs.sound hrun
      (fun _ _ _ _ _ _ hdo hsound hv => hdo.backs_send hsound hv) hs.backs
  | commit w r hw hfirst hrun =>
    obtain ⟨copied, href⟩ := Cacher.bhWriteCommit_refines hs.cache hs.sound hw hrun
    exact ⟨href.ok, href.sound hs.sound, href.does.backs_commit hfirst hs.backs⟩

theorem ok_of_new {c} (hnew : c.New) (store : Content) : Ok ⟨c, fun _ _ => none, store⟩ := by
  have hhold : ∀ key b, c.view.hold key b = none := by
    intro key b
    rw [View.hold, hnew.view_cell]
    rfl
  refine ⟨hnew.ok, hnew.sound, ?_, ?_, ?_, ?_⟩
  · intro key b x hx
    cases (hhold key b).symm.trans hx
  · intro key b t x hx
    cases (hhold key b).symm.trans hx
  · intro key b x hx
    cases (hhold key b).symm.trans hx
  · intro key b hne
    exact absurd rfl hne

/-- Whatever writes, flushes and commits happen: a clean byte that was written through the cache
has the value that the store has for it, and a byte whose last value is not in the store is dirty
or on its way. -/
theorem reachable_safe {c : Cacher} (hnew : c.New) (store : Content) {s : Backed}
    (h : Relation.ReflTransGen Step ⟨c, fun _ _ => none, store⟩ s) :
    (∀ key b x, s.written key b ≠ none → s.cache.cell key b = some (.clean x) →
      s.store key b = x) ∧
    ∀ key b, s.written key b ≠ none → s.store key b ≠ s.written key b →
      (∃ x snapc, s.cache.cell key b = some (.dirty x snapc)) ∨
      ∃ tid x snapc, s.cache.cell key b = some (.tx tid x snapc) := by
  have hok : s.Ok := by
    induction h with
    | refl => exact ok_of_new hnew store
    | tail _ hstep ih => exact hstep.ok ih
  have hclean : ∀ key b x, s.written key b ≠ none → s.cache.cell key b = some (.clean x) →
      s.written key b = x ∧ s.store key b = x := by
    intro key b x hne hx
    have hhold : s.cache.view.hold key b = some (.clean x) := congrArg (Option.map Cell.hold) hx
    obtain ⟨hval, hstore, -⟩ := hok.backs.clean key b x hhold hne
    exact ⟨hval, hstore⟩
  refine ⟨fun key b x hne hx => (hclean key b x hne hx).2, ?_⟩
  intro key b hne hdiff
  obtain ⟨h, hhold, hother⟩ := hok.backs.cached key b hne
  obtain ⟨x, hx, rfl⟩ := Option.map_eq_some_iff.mp hhold
  cases x with
  | dirty x snapc => exact .inl ⟨x, snapc, hx⟩
  | tx tid x snapc => exact .inr ⟨tid, x, snapc, hx⟩
  | clean x =>
    obtain ⟨hval, hstore⟩ := hclean key b x hne hx
    exact absurd (hstore.trans hval.symm) hdiff
  | _ => exact absurd rfl hother

/-- Four bytes are sent, two of them are overwritten, and then the commit arrives. -/
theorem reachable_safe_overwritten :
    let key := soid 0 "1.00000000" cephNosnap
    let c : Cacher := { maxSize := 16, maxObjects := 16 }
    ∃ s, Relation.ReflTransGen Step ⟨c, fun _ _ => none, fun _ _ => none⟩ s ∧
      s.written key 0 = some 1 ∧ s.cache.cell key 0 = some (.clean (some 1)) ∧
      s.store key 0 = some 1 ∧ s.store key 1 ≠ s.written key 1 ∧
      ((∃ x snapc, s.cache.cell key 1 = some (.dirty x snapc)) ∨
        ∃ tid x snapc, s.cache.cell key 1 = some (.tx tid x snapc)) := by
  intro key c
  let oset : ObjectSet := ⟨0, 0, 0, false⟩
  let ex : ℕ → ℕ → ObjectExtent := fun off len => ⟨"1.00000000", 0, off, len, 0, 0, [(0, len)]⟩
  let wr1 : OSDWrite := ⟨[ex 0 4], ⟨1, [1]⟩, [1, 2, 3, 4], false⟩
  let wr2 : OSDWrite := ⟨[ex 1 2], ⟨1, [1]⟩, [8, 9], false⟩
  let w : WriteCommit := ⟨1, key, 0, 4, [1, 2, 3, 4], ⟨1, [1]⟩⟩
  obtain ⟨c1, hc1, h1⟩ := exists_eq_getD c (c.writex oset wr1 0) (by decide +kernel)
  obtain ⟨c2, hc2, h2⟩ := exists_eq_getD c (c1.step (.flushSet oset 0))
    (by rw [hc1]; decide +kernel)
  obtain ⟨c3, hc3, h3⟩ := exists_eq_getD c (c2.writex oset wr2 1)
    (by rw [hc2, hc1]; decide +kernel)
  obtain ⟨c4, hc4, h4⟩ := exists_eq_getD c (c3.bhWriteCommit w 0)
    (by rw [hc3, hc2, hc1]; decide +kernel)
  have hok1 : wr1.Ok := by constructor <;> decide
  have hok2 : wr2.Ok := by constructor <;> decide
  obtain ⟨hw, hfirst⟩ : w ∈ c3.writes ∧
      ∀ w' ∈ c3.writes, w'.key = w.key → w.tid ≤ w'.tid := by
    rw [hc3, hc2, hc1]
    decide +kernel
  obtain ⟨g, hg⟩ : ∃ g : Content, g = fun _ _ => none := ⟨_, rfl⟩
  have s1 : Step ⟨c, g, g⟩ ⟨c1, wr1.over g, g⟩ := .writex oset wr1 0 hok1 h1
  have s2 : Step ⟨c1, wr1.over g, g⟩ ⟨c2, wr1.over g, g⟩ := .flush (.flushSet oset 0) trivial h2
  have s3 : Step ⟨c2, wr1.over g, g⟩ ⟨c3, wr2.over (wr1.over g), g⟩ := .writex oset wr2 1 hok2 h3
  have s4 : Step ⟨c3, wr2.over (wr1.over g), g⟩ ⟨c4, wr2.over (wr1.over g), w.over g⟩ :=
    .commit w 0 hw hfirst h4
  have hrun := (((Relation.ReflTransGen.single s1).tail s2).tail s3).tail s4
  rw [hg] at hrun
  have hnew : c.New := ⟨rfl, rfl, rfl, rfl, rfl⟩
  obtain ⟨hclean, hdirty⟩ := reachable_safe hnew (fun _ _ => none) hrun
  have hcell : c4.cell key 0 = some (.clean (some 1)) := by
    rw [hc4, hc3, hc2, hc1]
    decide +kernel
  have hfirstByte : wr2.over (wr1.over fun _ _ => none) key 0 = some 1 := by decide +kernel
  have hsecondByte : wr2.over (wr1.over fun _ _ => none) key 1 = some 8 := by decide +kernel
  have hdiff : w.over (fun _ _ => none) key 1 ≠ wr2.over (wr1.over fun _ _ => none) key 1 := by
    decide
  exact ⟨_, hrun, hfirstByte, hcell, hclean key 0 _ (by simp [hfirstByte]) hcell, hdiff,
    hdirty key 1 (by simp [hsecondByte]) hdiff⟩

end Backed

end CephDokan.ObjectCacher
