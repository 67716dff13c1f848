import CephDokan.Osdc.ObjectCacher.Runs

/-!
# The snapshot context of data that is sent

A dirty byte should go out with the snapshot context of the write it came from. Joining two
dirty heads keeps the context of the left one only, so this holds as long as no write meets a
dirty byte with another context at one of its ends.
-/

namespace CephDokan.ObjectCacher

open Fallible List

def Cell.snapc? : Cell → Option SnapContext
  | .dirty _ snapc | .tx _ _ snapc => some snapc
  | _ => none

/-- The write covers byte `b` of the object `key`. -/
def OSDWrite.Covers (wr : OSDWrite) (key : Soid) (b : ℕ) : Prop :=
  ∃ ex ∈ wr.extents, key = Cacher.writeKey ex ∧ ex.offset ≤ b ∧ b < ex.offset + ex.length

instance OSDWrite.decidableCovers (wr : OSDWrite) (key : Soid) (b : ℕ) :
    Decidable (wr.Covers key b) :=
  inferInstanceAs (Decidable (∃ ex ∈ wr.extents, _))

abbrev Stamps := Soid → ℕ → Option SnapContext

def Op.stamp (g : Stamps) : Op → Stamps
  | writex _ wr _ => fun key b => if wr.Covers key b then some wr.snapc else g key b
  | _ => g

def lastSnapc (ops : List Op) : Stamps := ops.foldl Op.stamp fun _ _ => none

namespace View

/-- Bytes that are dirty or on their way have the context of their last writer. -/
def Stamped (v : View) (g : Stamps) : Prop :=
  ∀ key b s, (v.cell key b).bind Cell.snapc? = some s → g key b = some s

/-- The calls of the writeback handler from `v` to `v'` send every byte with the context of its
last writer. -/
def SendsStamped (g : Stamps) (v v' : View) : Prop :=
  ∃ new, v'.calls = v.calls ++ new ∧ ∀ w, Call.write w ∈ new →
    ∀ b, w.start ≤ b → b < w.start + w.length → g w.key b = some w.snapc

variable {l : Label} {v v' v'' : View} {g : Stamps}

theorem SendsStamped.refl (g : Stamps) (v : View) : SendsStamped g v v := ⟨[], by simp, by simp⟩

theorem SendsStamped.trans (h : SendsStamped g v v') (h' : SendsStamped g v' v'') :
    SendsStamped g v v'' := by
  obtain ⟨new, hcalls, hnew⟩ := h
  obtain ⟨new', hcalls', hnew'⟩ := h'
  refine ⟨new ++ new', by rw [hcalls', hcalls, append_assoc], ?_⟩
  intro w hw
  rcases mem_append.mp hw with hw | hw
  · exact hnew w hw
  · exact hnew' w hw

variable {key : Soid}

theorem seamless_of_none {off stop : ℕ} {snapc}
    (hleft : ∀ b, b + 1 = off → v.cell key b = none) (hright : v.cell key stop = none) :
    v.Seamless key off stop snapc := by
  refine ⟨?_, ?_⟩
  · intro b x s hb hcell
    rw [hleft b hb] at hcell
    cases hcell
  · intro x s hcell
    rw [hright] at hcell
    cases hcell

section

variable (h : Does l v v') (hl : ∀ key off data snapc, l ≠ .write key off data snapc)

include h hl

theorem Does.snapc {b : ℕ} {s} (hs : (v'.cell key b).bind Cell.snapc? = some s) :
    (v.cell key b).bind Cell.snapc? = some s := by
  have hturn := h.turns key b
  generalize v'.cell key b = new at hs hturn
  generalize v.cell key b = old at hturn ⊢
  cases hturn with
  | keep => exact hs
  | send => exact hs
  | again => exact hs
  | write | beside => exact absurd rfl (hl _ _ _ _)
  | _ => cases hs

/-- A step that writes nothing keeps the contexts, and what it sends has the right one. -/
theorem Does.stamped (hg : v.Stamped g) : v'.Stamped g ∧ SendsStamped g v v' := by
  refine ⟨fun key b s hs => hg key b s (h.snapc hl hs), ?_⟩
  unfold SendsStamped
  rw [h.calls_eq]
  cases l with
  | send key start bl snapc =>
    refine ⟨_, rfl, ?_⟩
    intro w hw b hle hlt
    obtain rfl : w = v.newWrite key start bl snapc := Call.write.inj (mem_singleton.mp hw)
    have hhere := h.here b
    simp only [Local] at hhere
    rw [if_pos ⟨hle, hlt⟩] at hhere
    refine hg key b snapc ?_
    have hold : v.cell key b = _ := hhere.1
    rw [hold]
    rfl
  | request key start length => exact ⟨_, rfl, by simp⟩
  | _ => exact ⟨[], by simp [moved], by simp⟩

end

/-- A write that meets no other context gives its bytes its own. -/
theorem Does.stamped_write {off : ℕ} {data} {snapc} (h : Does (.write key off data snapc) v v')
    (hseam : v.Seamless key off (off + data.length) snapc) (hg : v.Stamped g) :
    v'.Stamped fun key' b =>
      if key' = key ∧ off ≤ b ∧ b < off + data.length then some snapc else g key' b := by
  intro key' b s hs
  simp only
  by_cases hkey : key' = key
  · subst hkey
    have hhere := (h.here b).2.2 hseam
    have hcell : v'.cell key' b = _ := hhere
    rw [hcell] at hs
    split_ifs at hs with hin
    · rw [if_pos ⟨rfl, hin⟩]
      exact hs
    · rw [if_neg (fun hc => hin hc.2)]
      exact hg key' b s hs
  · rw [if_neg (fun hc => hkey hc.1)]
    rw [h.elsewhere key' hkey] at hs
    exact hg key' b s hs

end View

theorem OSDWrite.Ok.length_dataOf {wr : OSDWrite} {ex} (hwr : wr.Ok)
    (hex : ex ∈ wr.extents) : (wr.dataOf ex).length = ex.length := by
  rw [OSDWrite.dataOf, length_flatMap, ← hwr.total ex hex]
  congr 1
  apply map_congr_left
  intro p hp
  have hin := (hwr.inside ex hex p hp).2
  rw [length_take, length_drop]
  omega

namespace Cacher

/-- A write meets no dirty byte of another snapshot context at the ends of its extents. -/
def SeamlessStep (c : Cacher) : Op → Prop
  | .writex _ wr _ => ∀ ex ∈ wr.extents,
      c.view.Seamless (writeKey ex) ex.offset (ex.offset + ex.length) wr.snapc
  | _ => True

variable {c c' c'' : Cacher} {op : Op} {ops : List Op} {wr : OSDWrite} {exs : List ObjectExtent}
  {v v' : View} {g : Stamps}

theorem stamped_writes (hwr : wr.Ok) (hsub : ∀ ex ∈ exs, ex ∈ wr.extents)
    (hdist : exs.Pairwise fun e e' => e.oid ≠ e'.oid)
    (htrace : Trace View.Does v (exs.map (writeLabel wr)) v')
    (hseam : ∀ ex ∈ exs, v.Seamless (writeKey ex) ex.offset (ex.offset + ex.length) wr.snapc)
    (hg : v.Stamped g) : v'.Stamped (fun key b =>
      if ∃ ex ∈ exs, key = writeKey ex ∧ ex.offset ≤ b ∧ b < ex.offset + ex.length
      then some wr.snapc else g key b) := by
  induction exs generalizing v g with
  | nil =>
    cases htrace
    simpa using hg
  | cons ex exs ih =>
    obtain ⟨hne, hdist⟩ := pairwise_cons.mp hdist
    cases htrace with
    | @cons _ v1 _ _ _ hdo htrace =>
      have hlen := hwr.length_dataOf (hsub ex mem_cons_self)
      have hseam1 := hseam ex mem_cons_self
      rw [← hlen] at hseam1
      have hg1 := hdo.stamped_write hseam1 hg
      -- the write leaves the objects of the other extents alone
      have hseam' : ∀ ex' ∈ exs,
          v1.Seamless (writeKey ex') ex'.offset (ex'.offset + ex'.length) wr.snapc := by
        intro ex' hex'
        have hcell := hdo.elsewhere (writeKey ex') (writeKey_ne (hne ex' hex').symm)
        unfold View.Seamless
        rw [hcell]
        exact hseam ex' (mem_cons_of_mem _ hex')
      intro key b s hs
      have heq := ih (fun e he => hsub e (mem_cons_of_mem _ he)) hdist htrace hseam' hg1 key b s hs
      rw [← heq]
      simp only [mem_cons, exists_eq_or_imp, hlen]
      by_cases hrest : ∃ ex ∈ exs, key = writeKey ex ∧ ex.offset ≤ b ∧ b < ex.offset + ex.length
      · rw [if_pos (.inr hrest), if_pos hrest]
      · rw [if_neg hrest]
        exact if_congr (or_iff_left hrest) rfl rfl

theorem step_stamped (hc : c.Ok) (hs : c.view.Sound) (hop : op.Ok) (hg : c.view.Stamped g)
    (hrun : c.step op = .ok c') :
    (c.SeamlessStep op → c'.view.Stamped (op.stamp g)) ∧ View.SendsStamped g c.view c'.view := by
  by_cases hwrite : ∃ oset wr now, op = .writex oset wr now
  · obtain ⟨oset, wr, now, rfl⟩ := hwrite
    have href := writex_refines hc hop hrun
    refine ⟨fun hseam => stamped_writes hop (fun _ he => he) hop.distinct href.trace hseam hg, ?_⟩
    have hcalls : c'.view.calls = c.view.calls :=
      writex_invariant (P := fun v => v.calls = c.view.calls) hc hop hrun
        (fun _ _ _ _ _ _ hdo hv => hdo.calls_eq.trans hv) rfl
    exact ⟨[], by simp [hcalls], by simp⟩
  · obtain ⟨ls, href, hls⟩ := step_refines hc hs hop hrun
    have hstamp : op.stamp g = g := by
      cases op with
      | writex oset wr now => exact absurd ⟨oset, wr, now, rfl⟩ hwrite
      | _ => rfl
    have hboth : c'.view.Stamped g ∧ View.SendsStamped g c.view c'.view := by
      refine href.trace.invariant (P := fun v => v.Stamped g ∧ View.SendsStamped g c.view v) ?_
        ⟨hg, View.SendsStamped.refl g _⟩
      intro l hl v v' hdo ⟨hv, hsends⟩
      have hnot : ∀ key off data snapc, l ≠ .write key off data snapc := by
        rintro key off data snapc rfl
        have htakes := hls _ hl
        cases op with
        | writex oset wr now => exact hwrite ⟨oset, wr, now, rfl⟩
        | _ => simp [Op.Takes, Label.Reads, Label.Sends] at htakes
      obtain ⟨hv', hsends'⟩ := hdo.stamped hnot hv
      exact ⟨hv', hsends.trans hsends'⟩
    rw [hstamp]
    exact ⟨fun _ => hboth.1, hboth.2⟩

/-- A run whose writes meet no dirty bytes of another snapshot context: whatever the next
operation hands to the writeback handler goes out with the context of the write that wrote it
last. -/
theorem run_sendsStamped (hnew : c.New) (hops : ∀ o ∈ ops, o.Ok) (hop : op.Ok)
    (hseam : RunMeets SeamlessStep c ops) (hrun : c.run ops = .ok c')
    (hstep : c'.step op = .ok c'') :
    View.SendsStamped (lastSnapc ops) c'.view c''.view := by
  have hnone : c.view.Stamped fun _ _ => none := by
    intro key b s hs
    rw [hnew.view_cell] at hs
    cases hs
  obtain ⟨⟨ls, href⟩, hs⟩ := run_refines hnew.ok hnew.sound hops hrun
  have hg : c'.view.Stamped (lastSnapc ops) := by
    refine run_ghost (Q := fun d g => d.view.Stamped g) Op.stamp hnew.ok hnew.sound hops hseam hrun
      ?_ hnone
    intro d d' g o hd hs ho hmeets hg hstep
    exact (step_stamped hd hs ho hg hstep).1 hmeets
  exact (step_stamped href.ok hs hop hg hstep).2

/-- Two writes with different contexts that do not touch. -/
theorem run_sendsStamped_apart :
    let oset : ObjectSet := ⟨0, 0, 0, false⟩
    let ex : ℕ → ℕ → ObjectExtent := fun off len => ⟨"1.00000000", 0, off, len, 0, 0, [(0, len)]⟩
    let c : Cacher := { maxSize := 16, maxObjects := 16 }
    let ops : List Op := [.writex oset ⟨[ex 0 2], ⟨1, [1]⟩, [1, 2], false⟩ 0,
      .writex oset ⟨[ex 4 2], ⟨2, [2, 1]⟩, [3, 4], false⟩ 0]
    ∃ c' c'', c.run ops = .ok c' ∧ c'.step (.flushSet oset 0) = .ok c'' ∧
      View.SendsStamped (lastSnapc ops) c'.view c''.view := by
  intro oset ex c ops
  have hok : (c.run ops).isOk = true := by decide +kernel
  have hrun := eq_ok_getD c hok
  have hflush : (((c.run ops).toOption.getD c).step (.flushSet oset 0)).isOk = true := by
    decide +kernel
  have hstep := eq_ok_getD c hflush
  have hops : ∀ op ∈ ops, op.Ok := by
    simp only [ops, forall_mem_cons, Op.Ok, and_true, not_mem_nil, false_imp_iff,
      implies_true]
    constructor <;> constructor <;> decide
  obtain ⟨c1, hc1, hstep1⟩ := exists_eq_getD c
    (c.step (.writex oset ⟨[ex 0 2], ⟨1, [1]⟩, [1, 2], false⟩ 0)) (by decide +kernel)
  obtain ⟨hleft, hright⟩ : c1.view.cell (writeKey (ex 4 2)) 3 = none ∧
      c1.view.cell (writeKey (ex 4 2)) 6 = none := by
    rw [hc1]
    decide +kernel
  have hseam : RunMeets SeamlessStep c ops := by
    refine ⟨?_, ?_⟩
    · intro e he
      obtain rfl := mem_singleton.mp he
      exact View.seamless_of_none (fun b hb => absurd hb (by simp [ex])) rfl
    · intro d hd
      rw [hstep1] at hd
      cases hd
      refine ⟨?_, fun _ _ => trivial⟩
      intro e he
      obtain rfl := mem_singleton.mp he
      refine View.seamless_of_none ?_ hright
      intro b hb
      obtain rfl : b = 3 := Nat.succ.inj hb
      exact hleft
  have hop : (Op.flushSet oset 0).Ok := trivial
  exact ⟨_, _, hrun, hstep, run_sendsStamped ⟨rfl, rfl, rfl, rfl, rfl⟩ hops hop hseam hrun hstep⟩

/-- A write behind a dirty range of another snapshot context: its first byte goes out with the
context of its neighbour. -/
theorem flush_adjacentWrites_mixed :
    let oset : ObjectSet := ⟨0, 0, 0, false⟩
    let ex : ℕ → ℕ → ObjectExtent := fun off len => ⟨"1.00000000", 0, off, len, 0, 0, [(0, len)]⟩
    let c : Cacher := { maxSize := 16, maxObjects := 16 }
    let ops : List Op := [.writex oset ⟨[ex 0 2], ⟨1, [1]⟩, [1, 2], false⟩ 0,
      .writex oset ⟨[ex 2 2], ⟨2, [2, 1]⟩, [3, 4], false⟩ 0]
    let key := soid 0 "1.00000000" cephNosnap
    ∃ c' c'', c.run ops = .ok c' ∧ c'.step (.flushSet oset 0) = .ok c'' ∧ c'.calls = [] ∧
      c''.calls = [.write ⟨1, key, 0, 4, [1, 2, 3, 4], ⟨1, [1]⟩⟩] ∧
      lastSnapc ops key 2 = some ⟨2, [2, 1]⟩ := by
  intro oset ex c ops key
  have hok : (c.run ops).isOk = true := by decide +kernel
  have hflush : (((c.run ops).toOption.getD c).step (.flushSet oset 0)).isOk = true := by
    decide +kernel
  exact ⟨_, _, eq_ok_getD c hok, eq_ok_getD c hflush, by decide +kernel,
    by decide +kernel, by decide +kernel⟩

end Cacher

end CephDokan.ObjectCacher
