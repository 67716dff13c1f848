import CephDokan.Osdc.ObjectCacher.Writeback

/-!
# What `complete` promises

An object is `complete` when bytes that are not cached are known to be zero. The store behind
the cache takes the calls of the writeback handler in their order; an object that it does not
have is all zeros. The flag tells the truth as long as no write fails, `purge_set` drops no data of
a complete object and no reply that the object does not exist comes after data sent since then has
been dropped.
-/

namespace CephDokan.ObjectCacher

open Fallible Function

abbrev Disk := Soid → Option (ℕ → UInt8)

namespace Disk

def byte (d : Disk) (key : Soid) (b : ℕ) : UInt8 := (d key).elim 0 fun content => content b

/-- The store once a call has succeeded. -/
def take (d : Disk) : Call → Disk
  | .read _ => d
  | .write w => fun key =>
    if key = w.key then
      some fun b => if w.Covers key b then (w.bl[b - w.start]?).getD 0 else d.byte key b
    else d key

/-- The store once all of the calls have succeeded; a run in which a write fails leaves another. -/
def after (d : Disk) (calls : List Call) : Disk := calls.foldl take d

variable {d : Disk} {w : WriteCommit} {key : Soid} {b : ℕ} {calls calls' : List Call}

theorem after_append (d : Disk) (calls calls' : List Call) :
    d.after (calls ++ calls') = (d.after calls).after calls' := List.foldl_append

theorem take_byte (h : ¬w.Covers key b) : (d.take (.write w)).byte key b = d.byte key b := by
  by_cases hkey : key = w.key
  · simp only [byte, take, if_pos hkey, Option.elim_some, if_neg h]
  · simp only [byte, take, if_neg hkey]

theorem exists_of_after_byte (h : (d.after calls).byte key b ≠ d.byte key b) :
    ∃ w, Call.write w ∈ calls ∧ w.Covers key b := by
  induction calls generalizing d with
  | nil => exact absurd rfl h
  | cons call calls ih =>
    by_cases hrest : ((d.take call).after calls).byte key b = (d.take call).byte key b
    · cases call with
      | read rd => exact absurd hrest h
      | write w =>
        by_cases hcov : w.Covers key b
        · exact ⟨w, List.mem_cons_self, hcov⟩
        · exact absurd (hrest.trans (take_byte hcov)) h
    · obtain ⟨w, hw, hcov⟩ := ih hrest
      exact ⟨w, List.mem_cons_of_mem _ hw, hcov⟩

end Disk

def Cell.HasData : Cell → Prop
  | .clean _ | .dirty _ _ | .tx _ _ _ => True
  | _ => False

theorem Cell.hasData_forget {x y : Cell} (h : x.forget = y.forget) : x.HasData ↔ y.HasData := by
  cases x <;> cases y <;> first | exact Iff.rfl | cases h

namespace View

def Has (v : View) (key : Soid) (b : ℕ) : Prop := ∃ x, v.cell key b = some x ∧ x.HasData

/-- The flag `complete` and the zero heads tell the truth about the store `d`. -/
structure Truthful (v : View) (d : Disk) : Prop where
  zero : ∀ key b, v.cell key b = some .zero → d.byte key b = 0
  complete : ∀ key, v.complete key = true → ∀ b, d.byte key b ≠ 0 → v.Has key b

/-- When a step does not make the flag lie. -/
def Keeps (v : View) (d : Disk) : Label → Prop
  | .purge key => v.complete key = true → ∀ b, d.byte key b = 0
  | .reply rd _ true => ∀ b, d.byte rd.key b ≠ 0 → v.Has rd.key b
  | _ => True

/-- A step after which the object need not be complete any more. -/
def Clears (l : Label) : Prop := match l with
  | .trim _ | .release _ | .discard _ | .close _ => True
  | _ => False

variable {l : Label} {v v' : View} {d : Disk} {key : Soid} {b : ℕ}

section

variable (h : Does l v v')

include h

theorem Does.complete_of (hc : v'.complete key = true) :
    v.complete key = true ∧ ¬(key = l.key ∧ Clears l) ∨ ∃ rd r, l = .reply rd r true ∧
      key = rd.key := by
  rw [h.complete_eq] at hc
  cases l with
  | reply rd r absent =>
    cases absent with
    | false => exact .inl ⟨hc, fun hx => hx.2⟩
    | true =>
      by_cases hkey : key = rd.key
      · exact .inr ⟨rd, r, rfl, hkey⟩
      · simp only [moved, if_true, update_of_ne hkey] at hc
        exact .inl ⟨hc, fun hx => hx.2⟩
  | commit w r copied =>
    by_cases hkey : key = w.key
    · subst hkey
      simp only [moved, update_self, Bool.and_eq_true] at hc
      exact .inl ⟨hc.1, fun hx => hx.2⟩
    · simp only [moved, update_of_ne hkey] at hc
      exact .inl ⟨hc, fun hx => hx.2⟩
  | clear key' =>
    by_cases hkey : key = key'
    · subst hkey
      simp only [moved, update_self, Bool.and_eq_true] at hc
      exact .inl ⟨hc.1, fun hx => hx.2⟩
    · simp only [moved, update_of_ne hkey] at hc
      exact .inl ⟨hc, fun hx => hx.2⟩
  | trim key' | release key' | discard key' | close key' =>
    by_cases hkey : key = key'
    · subst hkey
      simp [moved] at hc
    · simp only [moved, update_of_ne hkey] at hc
      exact .inl ⟨hc, fun hx => hkey hx.1⟩
  | _ => exact .inl ⟨hc, fun hx => hx.2⟩

/-- Bytes are dropped only by the steps that clear the flag, and by `purge`. -/
theorem Does.has (hl : ¬(key = l.key ∧ Clears l)) (hp : l ≠ .purge key) (hb : v.Has key b) :
    v'.Has key b := by
  by_cases hkey : key = l.key
  swap
  · obtain ⟨x, hx, hdata⟩ := hb
    exact ⟨x, by rw [h.elsewhere key hkey, hx], hdata⟩
  have hturn := h.turns key b
  obtain ⟨x, hx, hdata⟩ := hb
  unfold Has
  rw [hx] at hturn
  generalize v'.cell key b = new at hturn ⊢
  cases hturn with
  | keep => exact ⟨x, rfl, hdata⟩
  | drop hdrop =>
    exfalso
    cases l with
    | abandon => rcases hdrop with rfl | rfl | ⟨tid, rfl⟩ <;> exact hdata
    | reply => rcases hdrop with rfl | ⟨tid, rfl⟩ <;> exact hdata
    | purge => exact hp (congrArg Label.purge hkey.symm)
    | trim | release | discard => exact hl ⟨hkey, trivial⟩
    | _ => exact hdrop
  | request hwait => rcases hwait with rfl | rfl | ⟨tid, rfl⟩ <;> exact absurd hdata id
  | beside hforget => exact ⟨_, rfl, (Cell.hasData_forget hforget).mpr hdata⟩
  | send | write | clean | again => exact ⟨_, rfl, trivial⟩
  | data | error => exact absurd hdata id

theorem Does.zero (hz : v'.cell key b = some .zero) :
    v.cell key b = some .zero ∨ v.cell key b = none ∧ v.complete key = true := by
  have hturn := h.turns key b
  rw [hz] at hturn
  generalize v.cell key b = old at hturn ⊢
  cases hturn with
  | keep => exact .inl rfl
  | zero hc => exact .inr ⟨rfl, hc⟩
  | @beside _ _ _ x _ hforget =>
    cases x <;> cases hforget
    exact .inl rfl

theorem Does.disk (d : Disk) (key : Soid) (b : ℕ) :
    (d.after v'.calls).byte key b = (d.after v.calls).byte key b ∨
      (∃ x s, v.cell key b = some (.dirty x s)) ∧ v'.Has key b := by
  rw [h.calls_eq]
  cases l with
  | send key' start bl snapc =>
    by_cases hcov : (v.newWrite key' start bl snapc).Covers key b
    · obtain ⟨hkey, hr⟩ := hcov
      obtain rfl : key = key' := hkey.symm
      have hhere := h.here b
      simp only [Local, Label.key] at hhere
      have hin : start ≤ b ∧ b < start + bl.length := hr
      rw [if_pos hin] at hhere
      exact .inr ⟨⟨_, _, hhere.1⟩, _, hhere.2, trivial⟩
    · refine .inl ?_
      have happ : d.after (v.calls ++ [.write (v.newWrite key' start bl snapc)]) =
          (d.after v.calls).take (.write (v.newWrite key' start bl snapc)) :=
        Disk.after_append d v.calls _
      exact (congrArg (fun d : Disk => d.byte key b) happ).trans (Disk.take_byte hcov)
  | request key' start length =>
    refine .inl ?_
    have happ : d.after (v.calls ++ [.read (v.newRead key' start length)]) = d.after v.calls :=
      Disk.after_append d v.calls _
    exact congrArg (fun d : Disk => d.byte key b) happ
  | _ => exact .inl rfl

theorem Does.truthful (hv : v.Truthful (d.after v.calls)) (hl : v.Keeps (d.after v.calls) l) :
    v'.Truthful (d.after v'.calls) := by
  refine ⟨?_, ?_⟩
  · intro key b hz
    rcases h.disk d key b with heq | ⟨⟨x, s, hdirty⟩, -⟩
    · rw [heq]
      rcases h.zero hz with hz | ⟨hnone, hc⟩
      · exact hv.zero key b hz
      · by_contra hne
        obtain ⟨x, hx, -⟩ := hv.complete key hc b hne
        cases hnone.symm.trans hx
    · rcases h.zero hz with hz | ⟨hnone, -⟩
      · cases hdirty.symm.trans hz
      · cases hdirty.symm.trans hnone
  · intro key hc b hne
    rcases h.disk d key b with heq | ⟨-, hhas⟩
    swap
    · exact hhas
    rw [heq] at hne
    rcases h.complete_of hc with ⟨hold, hclears⟩ | ⟨rd, r, rfl, rfl⟩
    · refine h.has hclears ?_ (hv.complete key hold b hne)
      rintro rfl
      exact hne (hl hold b)
    · exact h.has (fun hx => hx.2) (by simp) (hl b hne)

end

end View

namespace Cacher

/-- The reply that the object does not exist is right and comes in time: the store did not have
the object when it took the read, and everything sent to the object since then is still in the
cache. -/
def AnswersInTime (d : Disk) (c : Cacher) (rd : ReadFinish) : Prop :=
  ∃ pre rd0 post, c.calls = pre ++ .read rd0 :: post ∧ rd0.tid = rd.tid ∧
    d.after pre rd.key = none ∧
    ∀ w, Call.write w ∈ post → ∀ b, w.Covers rd.key b → c.view.Has rd.key b

/-- When an operation does not make the flag lie: `purge_set` finds no complete object with data
in the store, a reply that an object does not exist comes in time, and a write succeeds. -/
def CompleteStep (d : Disk) (c : Cacher) : Op → Prop
  | .purgeSet oset => ∀ key ∈ c.objectsOf oset, c.view.complete key = true →
      ∀ b, (d.after c.calls).byte key b = 0
  | .readFinish tid _ r => ∀ rd ∈ c.reads, rd.tid = tid → r = enoent → rd.trustEnoent = true →
      c.view.complete rd.key = false → c.AnswersInTime d rd
  | .writeCommit _ r => 0 ≤ r
  | _ => True

variable {c c' : Cacher} {op : Op} {ops : List Op} {d : Disk} {rd : ReadFinish}

theorem AnswersInTime.has (h : c.AnswersInTime d rd) {b : ℕ}
    (hne : (d.after c.calls).byte rd.key b ≠ 0) : c.view.Has rd.key b := by
  obtain ⟨pre, rd0, post, hcalls, -, habsent, hsent⟩ := h
  have hzero : (d.after pre).byte rd.key b = 0 := by
    rw [Disk.byte, habsent]
    rfl
  have hsplit : d.after c.calls = (d.after pre).after post := by
    rw [hcalls, Disk.after_append]
    rfl
  rw [hsplit, ← hzero] at hne
  obtain ⟨w, hw, hcov⟩ := Disk.exists_of_after_byte hne
  exact hsent w hw b hcov

theorem step_truthful (hc : c.Ok) (hs : c.view.Sound) (hop : op.Ok)
    (hkeeps : CompleteStep d c op) (hv : c.view.Truthful (d.after c.calls))
    (hrun : c.step op = .ok c') : c'.view.Truthful (d.after c'.calls) := by
  have hplain : (∀ l, op.Takes l → ∀ v : View, v.Keeps (d.after v.calls) l) →
      c'.view.Truthful (d.after c'.calls) := by
    intro hlabels
    obtain ⟨ls, href, hls⟩ := step_refines hc hs hop hrun
    refine href.trace.invariant (P := fun v => v.Truthful (d.after v.calls)) ?_ hv
    intro l hl v v' hdo hv
    exact hdo.truthful hv (hlabels l (hls l hl) v)
  cases op with
  | purgeSet oset =>
    -- a purge changes neither the flags nor what has been sent
    have href := purgeSet_refines hc hrun
    refine (href.trace.invariant (P := fun v => v.Truthful (d.after v.calls) ∧
      v.complete = c.view.complete ∧ v.calls = c.view.calls) ?_ ⟨hv, rfl, rfl⟩).1
    rintro l hl v v' hdo ⟨hv, hcomplete, hcalls⟩
    obtain ⟨key, hkey, rfl⟩ := List.mem_map.mp hl
    refine ⟨hdo.truthful hv ?_, hdo.complete_eq.trans hcomplete, hdo.calls_eq.trans hcalls⟩
    intro hc
    rw [hcalls]
    exact hkeeps key hkey (hcomplete ▸ hc)
  | readFinish tid bl r =>
    unfold step at hrun
    simp only at hrun
    split at hrun
    · next rd hrd =>
      have hmem := List.mem_of_find?_eq_some hrd
      have htid : rd.tid = tid := by simpa using List.find?_some hrd
      obtain ⟨absent, href⟩ := bhReadFinish_refines hc hmem hrun
      cases href.trace with
      | cons hdo htrace =>
        cases htrace
        refine hdo.truthful hv ?_
        cases absent with
        | false => exact trivial
        | true =>
          obtain ⟨hr, htrust, hcomplete⟩ := hdo.ready.2 rfl
          intro b hne
          exact (hkeeps rd hmem htid hr htrust hcomplete).has hne
    · cases hrun
      exact hv
  | readx oset rd onfinish external | flushBh key k cutoff | flushSet oset ctx
  | flushSetExtents oset exv ctx =>
    apply hplain
    intro l hl v
    cases l <;> first | exact trivial | exact absurd hl id
  | retry waiting => exact hplain fun l hl => absurd hl id
  | writex oset wr now =>
    apply hplain
    rintro l ⟨ex, -, rfl⟩ v
    exact trivial
  | writeCommit tid r =>
    apply hplain
    rintro l ⟨w, copied, -, rfl⟩ v
    exact trivial
  | trimBh key k | trimObject key =>
    apply hplain
    rintro l rfl v
    exact trivial
  | releaseSet oset | releaseAll =>
    apply hplain
    rintro l ⟨key, rfl | rfl⟩ v <;> exact trivial
  | discardSet oset exls | clearNonexistence oset =>
    apply hplain
    rintro l ⟨key, rfl⟩ v
    exact trivial

/-- A run in which writes succeed, `purge_set` spares complete objects with data and replies come in
time: a byte
of a complete object that is not in the cache, and a byte that the cache takes for zero, is zero
in the store. -/
theorem run_complete_truthful (d : Disk) (hnew : c.New) (hops : ∀ op ∈ ops, op.Ok)
    (hkeeps : RunMeets (CompleteStep d) c ops) (hrun : c.run ops = .ok c') :
    (∀ key ob, c'.objects.find? key = some ob → ob.complete = true →
      ∀ b, c'.cell key b = none → (d.after c'.calls).byte key b = 0) ∧
    ∀ key b, c'.cell key b = some .zero → (d.after c'.calls).byte key b = 0 := by
  have hcomplete : ∀ key, c.view.complete key = false := by
    intro key
    simp [view, hnew.objects, show (∅ : SortedMap Soid Object).find? key = none from rfl]
  have hstart : c.view.Truthful (d.after c.calls) := by
    refine ⟨?_, ?_⟩
    · intro key b hz
      cases (hnew.view_cell key b).symm.trans hz
    · intro key hc
      cases (hcomplete key).symm.trans hc
  have hv : c'.view.Truthful (d.after c'.calls) := by
    refine run_ghost (g := ()) (Q := fun e _ => e.view.Truthful (d.after e.calls)) (fun _ _ => ())
      hnew.ok hnew.sound hops hkeeps hrun ?_ hstart
    intro e e' _ op he hs hop hmeets hv hstep
    exact step_truthful he hs hop hmeets hv hstep
  refine ⟨?_, hv.zero⟩
  intro key ob hfind hc b hnone
  by_contra hne
  obtain ⟨x, hx, -⟩ := hv.complete key ((view_complete hfind).trans hc) b hne
  cases hnone.symm.trans hx

/-- A reply that the object does not exist, before anything is written. -/
theorem run_complete_truthful_absent :
    let oset : ObjectSet := ⟨0, 0, 0, false⟩
    let ex : ℕ → ℕ → ObjectExtent := fun off len => ⟨"1.00000000", 0, off, len, 0, 0, [(0, len)]⟩
    let key := soid 0 "1.00000000" cephNosnap
    let d : Disk := fun _ => none
    let c : Cacher := { maxSize := 16, maxObjects := 16 }
    let ops : List Op :=
      [.readx oset { id := 1, extents := [ex 0 2], snap := cephNosnap } true true,
        .readFinish 1 [] enoent, .writex oset ⟨[ex 0 1], ⟨1, [1]⟩, [5], false⟩ 0, .flushSet oset 0,
        .writeCommit 1 0]
    ∃ c', c.run ops = .ok c' ∧ c'.view.complete key = true ∧ c'.cell key 1 = none ∧
      (d.after c'.calls).byte key 0 = 5 ∧ (d.after c'.calls).byte key 1 = 0 := by
  intro oset ex key d c ops
  obtain ⟨c1, hc1, hstep⟩ := exists_eq_getD c (c.step (.readx oset
      { id := 1, extents := [ex 0 2], snap := cephNosnap } true true)) (by decide +kernel)
  obtain ⟨c', hc', hrun⟩ := exists_eq_getD c (c.run ops) (by decide +kernel)
  have hcalls : c1.calls = [.read ⟨1, key, 0, 2, true, true⟩] := by
    rw [hc1]
    decide +kernel
  have hops : ∀ op ∈ ops, op.Ok := by
    simp only [ops, List.forall_mem_cons, Op.Ok, true_and, and_true, List.not_mem_nil,
      false_imp_iff, implies_true]
    constructor <;> decide
  have hkeeps : RunMeets (CompleteStep d) c ops := by
    refine ⟨trivial, ?_⟩
    intro e he
    rw [hstep] at he
    cases he
    refine ⟨?_, fun _ _ => ⟨trivial, fun _ _ => ⟨trivial, fun _ _ => ⟨le_rfl, fun _ _ => trivial⟩⟩⟩⟩
    intro rd _ htid _ _ _
    exact ⟨[], _, [], hcalls, htid.symm, rfl, by simp⟩
  have hnew : c.New := ⟨rfl, rfl, rfl, rfl, rfl⟩
  obtain ⟨hcomplete, hnone, hbyte⟩ : c'.view.complete key = true ∧ c'.cell key 1 = none ∧
      (d.after c'.calls).byte key 0 = 5 := by
    rw [hc']
    decide +kernel
  obtain ⟨ob, hfind⟩ : ∃ ob, c'.objects.find? key = some ob := by
    cases hfind : c'.objects.find? key with
    | none => simp [view, hfind] at hcomplete
    | some ob => exact ⟨ob, rfl⟩
  exact ⟨c', hrun, hcomplete, hnone, hbyte, (run_complete_truthful d hnew hops hkeeps hrun).1 key ob
    hfind ((view_complete hfind).symm.trans hcomplete) 1 hnone⟩

/-- An object is found not to exist, is written and flushed, and then `purge_set` drops the data
but not the flag: the next read gets a zero for a byte that the store has. -/
theorem purgeSet_complete_lies :
    let oset : ObjectSet := ⟨0, 0, 0, false⟩
    let ex : ℕ → ℕ → ObjectExtent := fun off len => ⟨"1.00000000", 0, off, len, 0, 0, [(0, len)]⟩
    let key := soid 0 "1.00000000" cephNosnap
    let d : Disk := fun _ => none
    let c : Cacher := { maxSize := 16, maxObjects := 16 }
    let ops : List Op :=
      [.readx oset { id := 1, extents := [ex 0 1], snap := cephNosnap } true true,
        .readFinish 1 [] enoent, .writex oset ⟨[ex 0 1], ⟨1, [1]⟩, [5], false⟩ 0, .flushSet oset 0,
        .writeCommit 1 0, .purgeSet oset]
    ∃ c' c'', c.run ops = .ok c' ∧ c'.view.complete key = true ∧ c'.cell key 0 = none ∧
      (d.after c'.calls).byte key 0 = 5 ∧
      c'.readx oset { id := 2, extents := [ex 0 1], snap := cephNosnap } true true =
        .ok (c'', 1, some [0]) := by
  intro oset ex key d c ops
  have hrun : (c.run ops).isOk = true := by decide +kernel
  let rd : OSDRead := { id := 2, extents := [ex 0 1], snap := cephNosnap }
  have hread : ((((c.run ops).toOption.getD c).readx oset rd true true).toOption.map
      fun p => p.2) = some (1, some [0]) := by decide +kernel
  obtain ⟨⟨c'', ret, bl⟩, hopt, heq⟩ := Option.map_eq_some_iff.mp hread
  obtain ⟨rfl, rfl⟩ := Prod.mk.inj heq
  exact ⟨_, c'', eq_ok_getD c hrun, by decide +kernel, by decide +kernel,
    by decide +kernel, eq_ok_of_toOption hopt⟩

end Cacher

end CephDokan.ObjectCacher
