import CephDokan.Osdc.ObjectCacher.Operations

/-!
# Reads refine the bytewise model

While `_readx` walks the heads that `map_read` has found, heads may go away or be asked
for, but a head it still has to come to is where it was and has no data: `Calm`.
-/

namespace CephDokan.ObjectCacher

open Fallible Focus SortedMap

namespace Focus

/-- Every head of `l'` was there with its range, and is still to be waited for if it was. -/
def CalmEntries (l l' : List Entry) : Prop :=
  ∀ k bh', (k, bh') ∈ l' → ∃ bh, (k, bh) ∈ l ∧ bh'.length = bh.length ∧ (bh.Waiting → bh'.Waiting)

theorem CalmEntries.of_subset {l l'} (h : ∀ e ∈ l', e ∈ l) : CalmEntries l l' :=
  fun _ bh' hmem => ⟨bh', h _ hmem, rfl, fun hw => hw⟩

theorem CalmEntries.trans {l l' l''} (h : CalmEntries l l')
    (h' : CalmEntries l' l'') : CalmEntries l l'' := by
  intro k bh'' hmem
  obtain ⟨bh', hmem', hlen', hwait'⟩ := h' k bh'' hmem
  obtain ⟨bh, hmem, hlen, hwait⟩ := h k bh' hmem'
  exact ⟨bh, hmem, hlen'.trans hlen, fun hw => hwait' (hwait hw)⟩

theorem CalmEntries.set {pre post : List Entry} {k : ℕ} {bh bh'}
    (hlen : bh'.length = bh.length) (hwait : bh.Waiting → bh'.Waiting) :
    CalmEntries (pre ++ (k, bh) :: post) (pre ++ (k, bh') :: post) := by
  intro j x hmem
  simp only [List.mem_append, List.mem_cons] at hmem
  rcases hmem with hmem | heq | hmem
  · exact ⟨x, by simp [hmem], rfl, fun hw => hw⟩
  · cases heq
    exact ⟨bh, by simp, hlen, hwait⟩
  · exact ⟨x, by simp [hmem], rfl, fun hw => hw⟩

variable {rest : Multiset Item} {f f' : Focus} {k : ℕ}

theorem touchBh_calm (hf : f.Ok rest) (hrun : f.touchBh k = .ok f') :
    CalmEntries f.ob.data.entries f'.ob.data.entries := by
  obtain ⟨bh, hd, -⟩ := bind_eq_ok.mp hrun
  obtain ⟨pre, post, he⟩ := deref_cases hd
  obtain ⟨f1, hrun1, hb⟩ := touchBh_spec hf.accounts he
  cases hrun.symm.trans hrun1
  rw [he, hb.entries]
  exact CalmEntries.set rfl (fun hw => hw)

theorem addWaiter_calm {first ctx : ℕ} (hrun : f.addWaiter k first ctx = .ok f') :
    CalmEntries f.ob.data.entries f'.ob.data.entries := by
  obtain ⟨bh, hd, hrun⟩ := bind_eq_ok.mp hrun
  cases hrun
  obtain ⟨pre, post, he⟩ := deref_cases hd
  rw [he, assign_entries he]
  exact CalmEntries.set rfl (fun hw => hw)

theorem touchHit_evolves {ex} {dontneed} (hf : f.Ok rest)
    (hrun : f.touchHit k ex dontneed = .ok f') : Evolves rest (fun a b => b = a) f f' := by
  obtain ⟨g, hg, hrun⟩ := bind_eq_ok.mp hrun
  obtain ⟨bh, hd, hrun⟩ := bind_eq_ok.mp hrun
  have hev := touchBh_evolves hf hg
  split_ifs at hrun
  · cases hrun
    obtain ⟨pre, post, he, hok, hfill⟩ := hev.ok.deref_cases hd
    exact hev.then_same (assign_evolves hev.ok he rfl ⟨hok.start, hok.pos, hok.waiters⟩ hfill
      (fun _ => rfl))
  · cases hrun
    exact hev

end Focus

namespace Cacher

variable {c c' c'' : Cacher} {key : Soid} {ob : Object} {p : ℕ × ℕ}

/-- The pointer `p.2`, recorded for byte `p.1`, leads to a head to wait for, if to one at all. -/
def Wanted (c : Cacher) (key : Soid) (p : ℕ × ℕ) : Prop :=
  ∀ ob bh, c.objects.find? key = some ob → (p.2, bh) ∈ ob.data.entries →
    p.2 ≤ p.1 ∧ p.1 < p.2 + bh.length ∧ bh.Waiting

/-- Nothing happens to the heads of an object that a read has to come to. -/
def Calm (key : Soid) (c c' : Cacher) : Prop :=
  ∀ ob', c'.objects.find? key = some ob' → ∃ ob, c.objects.find? key = some ob ∧
    Focus.CalmEntries ob.data.entries ob'.data.entries

theorem Calm.refl (key : Soid) (c : Cacher) : Calm key c c :=
  fun ob hob => ⟨ob, hob, Focus.CalmEntries.of_subset fun _ h => h⟩

theorem Calm.trans (h : Calm key c c') (h' : Calm key c' c'') : Calm key c c'' := by
  intro ob'' hob''
  obtain ⟨ob', hob', hcalm'⟩ := h' ob'' hob''
  obtain ⟨ob, hob, hcalm⟩ := h ob' hob'
  exact ⟨ob, hob, hcalm.trans hcalm'⟩

theorem Wanted.calm (h : c.Wanted key p) (hcalm : Calm key c c') : c'.Wanted key p := by
  intro ob' bh' hob' hmem'
  obtain ⟨ob, hob, hcalm⟩ := hcalm ob' hob'
  obtain ⟨bh, hmem, hlen, hwait⟩ := hcalm p.2 bh' hmem'
  obtain ⟨h1, h2, hw⟩ := h ob bh hob hmem
  exact ⟨h1, hlen ▸ h2, hwait hw⟩

theorem calm_put {f} (hfind : c.objects.find? key = some ob)
    (h : Focus.CalmEntries ob.data.entries f.ob.data.entries)
    (hc' : c'.objects = (c.put key f).objects) : Calm key c c' := by
  intro ob' hob'
  rw [hc', put_find?_self] at hob'
  cases hob'
  exact ⟨ob, hfind, h⟩

end Cacher

namespace Reading

open Cacher

variable {rs rs' : Reading} {key : Soid} {rd : OSDRead} {onfinish : Bool} {e : ℕ × ℕ}

structure Goes (key : Soid) (rs rs' : Reading) : Prop where
  refines : Steps Label.Reads rs.c rs'.c
  calm : Calm key rs.c rs'.c

theorem Goes.trans {rs''} (h : Goes key rs rs') (h' : Goes key rs' rs'') : Goes key rs rs'' :=
  ⟨h.refines.trans h'.refines, h.calm.trans h'.calm⟩

variable {c c' : Cacher}

theorem addWaiter_goes {wait} [Decidable wait] {ctx : ℕ} (hc : c.Ok) (hw : c.Wanted key e)
    (hrun : (c.atObject key fun f => if wait then f.addWaiter e.2 e.1 ctx else .ok f) = .ok c') :
    Refines c [] c' ∧ Calm key c c' := by
  constructor
  · refine atObject_same hc hrun ?_
    intro rest ob f' hfind hf hop
    split_ifs at hop
    · refine addWaiter_evolves hf ?_ hop
      intro bh hd
      obtain ⟨pre, post, he⟩ := deref_cases hd
      obtain ⟨h1, h2, -⟩ := hw ob bh hfind (by simp only at he; simp [he])
      exact ⟨h1, h2⟩
    · cases hop
      exact Focus.Evolves.refl hf (fun _ => rfl)
  · obtain ⟨ob, f', hfind, hop, rfl⟩ := atObject_cases hrun
    refine calm_put hfind ?_ rfl
    split_ifs at hop
    · exact addWaiter_calm hop
    · cases hop
      exact Focus.CalmEntries.of_subset fun _ h => h

theorem readMissing_goes (hc : rs.c.Ok) (hw : rs.c.Wanted key e)
    (hrun : readMissing key rd onfinish rs e = .ok rs') : Goes key rs rs' := by
  obtain ⟨ob, hfind, hrun⟩ := focus_cases hrun
  obtain ⟨bh, hd, hrun⟩ := bind_eq_ok.mp hrun
  obtain ⟨pre, post, he⟩ := deref_cases hd
  obtain ⟨-, -, hwait⟩ := hw ob bh hfind (by simp only at he; simp [he])
  split at hrun
  · -- too much has been asked for: the head goes away again
    obtain ⟨c1, hdrop, hrun⟩ := bind_eq_ok.mp hrun
    obtain ⟨ob', f', hfind', hop, rfl⟩ := atObject_cases hdrop
    cases hfind.symm.trans hfind'
    obtain ⟨rest, hfo, hput⟩ := hc.at hfind
    obtain ⟨hev, hsub⟩ := bhRemove_evolves (p := Cell.Waiting) hfo (fun bh' hmem b => by
      obtain rfl : bh' = bh := by
        have hfound := find?_of_mem hmem
        rw [find?_split he] at hfound
        exact (Option.some.inj hfound).symm
      exact hwait.cell b) hop
    have href : Refines rs.c [.abandon key] (rs.c.put key f') :=
      Refines.evolves hfind (hput f' hev.ok hev.oid) hev rfl trivial rfl (fun _ _ _ h => h)
    cases hrun
    exact ⟨.single ⟨href.ok.others rfl rfl, href.trace⟩ trivial,
      calm_put hfind (Focus.CalmEntries.of_subset hsub) rfl⟩
  · obtain ⟨c1, hread, hrun⟩ := bind_eq_ok.mp hrun
    obtain ⟨c2, hadd, hrun⟩ := bind_eq_ok.mp hrun
    cases hrun
    obtain ⟨_, ob1, hread', href, hfind1, he1, -⟩ := bhRead_spec hc hfind he hwait
    cases hread.symm.trans hread'
    have hcalm : Calm key rs.c c1 := by
      intro ob' hob'
      cases hfind1.symm.trans hob'
      refine ⟨ob, hfind, ?_⟩
      rw [he1]
      rw [he]
      exact Focus.CalmEntries.set rfl (fun _ => .inr (.inl rfl))
    obtain ⟨href', hcalm'⟩ := addWaiter_goes href.ok (hw.calm hcalm) hadd
    exact ⟨.trans (.single href trivial) (.unseen href'), hcalm.trans hcalm'⟩

theorem readRx_goes (hc : rs.c.Ok) (hw : rs.c.Wanted key e)
    (hrun : readRx key rd onfinish rs e = .ok rs') : Goes key rs rs' := by
  obtain ⟨c1, hat, hrun⟩ := bind_eq_ok.mp hrun
  cases hrun
  refine ⟨.unseen (atObject_same hc hat ?_), ?_⟩
  · intro rest ob f' hfind hf hop
    obtain ⟨g, hg, hop⟩ := bind_eq_ok.mp hop
    have hev := touchBh_evolves hf hg
    have hcalm := touchBh_calm hf hg
    split_ifs at hop
    · refine hev.then_same (addWaiter_evolves hev.ok ?_ hop)
      intro bh hd
      obtain ⟨pre, post, he⟩ := deref_cases hd
      obtain ⟨bh0, hmem, hlen, -⟩ := hcalm e.2 bh (by simp [he])
      obtain ⟨h1, h2, -⟩ := hw ob bh0 hfind hmem
      exact ⟨h1, hlen ▸ h2⟩
    · cases hop
      exact hev
  · obtain ⟨ob, f', hfind, hop, rfl⟩ := atObject_cases hat
    obtain ⟨rest, hf, -⟩ := hc.at hfind
    obtain ⟨g, hg, hop⟩ := bind_eq_ok.mp hop
    have hcalm := touchBh_calm hf hg
    refine calm_put hfind ?_ rfl
    split_ifs at hop
    · exact hcalm.trans (addWaiter_calm hop)
    · cases hop
      exact hcalm

variable {op : Reading → ℕ × ℕ → Run Reading} {es : List (ℕ × ℕ)}

theorem foldlM_goes (hc : rs.c.Ok) (hw : ∀ e ∈ es, rs.c.Wanted key e)
    (hrun : es.foldlM op rs = .ok rs')
    (hop : ∀ e rs rs', rs.c.Ok → rs.c.Wanted key e → op rs e = .ok rs' → Goes key rs rs') :
    Goes key rs rs' := by
  refine foldlM_invariant (P := fun t => Goes key rs t) hrun ?_ ⟨.refl hc, Calm.refl key rs.c⟩
  intro e he t t' ht hstep
  exact ht.trans (hop e t t' ht.refines.ok ((hw e he).calm ht.calm) hstep)

theorem readTouch_refines (hc : rs.c.Ok) (hrun : readTouch key rs e = .ok rs') :
    Refines rs.c [] rs'.c := by
  obtain ⟨c1, hat, hrun⟩ := bind_eq_ok.mp hrun
  cases hrun
  exact atObject_same hc hat fun _ _ _ _ hf hop => touchBh_evolves hf hop

variable {ex : ObjectExtent} {external : Bool} {oset : ObjectSet}

theorem readHit_refines (hc : rs.c.Ok)
    (hrun : readHit key rd ex rs e = .ok rs') : Refines rs.c [] rs'.c := by
  obtain ⟨f, -, hrun⟩ := bind_eq_ok.mp hrun
  obtain ⟨bh, -, hrun⟩ := bind_eq_ok.mp hrun
  obtain ⟨c1, hat, hrun⟩ := bind_eq_ok.mp hrun
  cases hrun
  exact atObject_same hc hat fun _ _ _ _ hf hop => touchHit_evolves hf hop

theorem foldlM_unseen (hc : rs.c.Ok) (hrun : es.foldlM op rs = .ok rs')
    (hop : ∀ e rs rs', rs.c.Ok → op rs e = .ok rs' → Refines rs.c [] rs'.c) :
    Refines rs.c [] rs'.c := by
  refine foldlM_invariant (P := fun t : Reading => Refines rs.c [] t.c) hrun ?_
    (Refines.refl hc)
  intro e _ t t' ht hstep
  exact ht.trans (hop e t t' ht.ok hstep)

theorem mem_insertAll {m m'} (h : e ∈ (insertAll m m').entries) :
    e ∈ m.entries ∨ e ∈ m'.entries := by
  unfold insertAll at h
  revert h
  generalize m'.entries = es
  induction es generalizing m with
  | nil => exact .inl
  | cons x es ih =>
    intro h
    rcases ih h with h | h
    · simp only at h
      split_ifs at h
      · exact .inl h
      · rcases (mem_insert _ _ _).mp h with rfl | ⟨h, -⟩
        · exact .inr List.mem_cons_self
        · exact .inl h
    · exact .inr (List.mem_cons_of_mem _ h)

theorem wanted_of_waits {c : Cacher} {ob} {p}
    (hfind : c.objects.find? key = some ob) (h : Focus.Waits ⟨c.books, ob⟩ p) : c.Wanted key p := by
  intro ob' bh' hob' hmem'
  cases hfind.symm.trans hob'
  obtain ⟨bh, hmem, h1, h2, hw⟩ := h
  have heq := (find?_of_mem hmem').symm.trans (find?_of_mem hmem)
  cases heq
  exact ⟨h1, h2, hw⟩

variable {m : Focus.ReadMap}

theorem readMapped_refines {ob : Object} (hc : rs.c.Ok) (hfind : rs.c.objects.find? key = some ob)
    (hm : m.Ok ⟨rs.c.books, ob⟩) (hrun : readMapped key rd onfinish external ex m rs = .ok rs') :
    Steps Label.Reads rs.c rs'.c := by
  unfold readMapped at hrun
  simp only at hrun
  have hmissing : ∀ p ∈ (if external = true then insertAll m.missing m.errors
      else m.missing).entries, rs.c.Wanted key p := by
    intro p hp
    split_ifs at hp
    · rcases mem_insertAll hp with hp | hp
      · exact wanted_of_waits hfind (hm.missing p hp)
      · exact wanted_of_waits hfind (hm.errors p hp)
    · exact wanted_of_waits hfind (hm.missing p hp)
  generalize (if external = true then insertAll m.missing m.errors else m.missing) = missing
    at hrun hmissing
  generalize (if external = true then m.hits else insertAll m.hits m.errors) = hits at hrun
  split_ifs at hrun
  · obtain ⟨rs1, hrun1, hrun⟩ := bind_eq_ok.mp hrun
    obtain ⟨rs2, hrun2, hrun⟩ := bind_eq_ok.mp hrun
    have hgo1 := foldlM_goes hc hmissing hrun1 fun _ _ _ hc hw h => readMissing_goes hc hw h
    have hgo2 := foldlM_goes hgo1.refines.ok
      (fun p hp => (wanted_of_waits hfind (hm.rx p hp)).calm hgo1.calm) hrun2
      fun _ _ _ hc hw h => readRx_goes hc hw h
    have hgo := (hgo1.trans hgo2).refines
    exact hgo.trans (.unseen (foldlM_unseen hgo.ok hrun fun _ _ _ hc h => readTouch_refines hc h))
  · obtain ⟨-, -, hrun⟩ := bind_eq_ok.mp hrun
    obtain ⟨rs1, hrun1, hrun⟩ := bind_eq_ok.mp hrun
    obtain ⟨f, -, hrun⟩ := bind_eq_ok.mp hrun
    obtain ⟨stripeMap, -, hrun⟩ := bind_eq_ok.mp hrun
    cases hrun
    have href : Refines rs.c [] rs1.c :=
      foldlM_unseen hc hrun1 fun _ _ _ hc h => readHit_refines hc h
    exact .unseen href

theorem mapAt_refines (hc : rs.c.Ok) (hrun : mapAt key rd rs = .ok (rs', m)) :
    Refines rs.c [.fill key] rs'.c ∧ ∃ ob, rs'.c.objects.find? key = some ob ∧
      m.Ok ⟨rs'.c.books, ob⟩ := by
  obtain ⟨ob, hfind, hrun⟩ := focus_cases hrun
  obtain ⟨⟨f', m'⟩, hmap, hrun⟩ := bind_eq_ok.mp hrun
  cases hrun
  obtain ⟨rest, hfo, hput⟩ := hc.at hfind
  obtain ⟨hev, hm⟩ := mapRead_evolves rd.extents hfo ⟨by simp, by simp, by simp⟩ hmap
  refine ⟨Refines.evolves hfind (hput f' hev.ok hev.oid) hev rfl trivial rfl ?_, f'.ob,
    put_find?_self rs.c key f', hm⟩
  intro b a a' hfill
  simp only [View.Local, view_complete hfind]
  exact hfill

theorem readNonexistent_refines {ret} (hc : c.Ok)
    (hrun : c.readNonexistent key rd ex = .ok (c', ret)) : Flushed c c' := by
  obtain ⟨ob, hfind, hrun⟩ := focus_cases hrun
  obtain ⟨-, -, hrun⟩ := bind_eq_ok.mp hrun
  split_ifs at hrun
  · obtain ⟨c1, hwrite, hrun⟩ := bind_eq_ok.mp hrun
    obtain ⟨c2, hwait, hrun⟩ := bind_eq_ok.mp hrun
    cases hrun
    have hkeys : ob.data.entries.Pairwise fun h h' => h.1 ≠ h'.1 := ob.data.sorted.imp fun h => h.ne
    have hsent := (writeDirty_keeps (P := Flushed c) (fun _ h => h.ok)
      (fun _ _ _ _ h hd => hd.send h)
      _ hkeys hfind (fun _ h => h) hwrite (.refl hc)).1
    exact hsent.wait hwait
  · cases hrun
    exact .refl hc
  · cases hrun
    exact .refl hc

theorem checkExists_refines {ret} (hc : c.Ok)
    (hrun : c.checkExists oset key rd ex = .ok (c', ret)) : Flushed c c' := by
  obtain ⟨f, -, hrun⟩ := bind_eq_ok.mp hrun
  split_ifs at hrun
  · exact readNonexistent_refines hc hrun
  · cases hrun
    exact .refl hc

theorem readObject_refines (hc : rs.c.Ok)
    (hrun : readObject key rd onfinish external rs ex = .ok rs') :
    Steps Label.Reads rs.c rs'.c := by
  obtain ⟨⟨rs1, m⟩, hmap, hrun⟩ := bind_eq_ok.mp hrun
  obtain ⟨hfill, ob, hfind, hm⟩ := mapAt_refines hc hmap
  exact .trans (.single hfill trivial) (readMapped_refines hfill.ok hfind hm hrun)

theorem readExtent_refines {o} (hc : rs.c.Ok)
    (hrun : readExtent oset rd onfinish external rs ex = .ok o) :
    Steps Label.Reads rs.c o.cacher := by
  obtain ⟨⟨c1, ret⟩, hcheck, hrun⟩ := bind_eq_ok.mp hrun
  have hget : Refines rs.c [] (rs.c.getObject (soid ex.pool ex.oid rd.snap) ex.oid ex.objectno oset
      ex.truncateSize) := getObject_refines hc rfl _ _ _
  have hsent : Steps Label.Reads rs.c c1 :=
    .trans (.unseen hget) ((checkExists_refines hget.ok hcheck).mono fun _ hl => hl.reads)
  cases ret with
  | some ret =>
    cases hrun
    exact hsent
  | none =>
    obtain ⟨rs1, hobj, hrun⟩ := bind_eq_ok.mp hrun
    cases hrun
    exact hsent.trans (readObject_refines hsent.ok hobj)

theorem readLoop_refines {extents} {o} (hc : rs.c.Ok)
    (hrun : readLoop oset rd onfinish external rs extents = .ok o) :
    Steps Label.Reads rs.c o.cacher := by
  induction extents generalizing rs with
  | nil =>
    cases hrun
    exact .refl hc
  | cons ex extents ih =>
    obtain ⟨o1, hone, hrun⟩ := bind_eq_ok.mp hrun
    have hext := readExtent_refines hc hone
    cases o1 with
    | done c ret bl =>
      cases hrun
      exact hext
    | more rs1 => exact hext.trans (ih hext.ok hrun)

end Reading

/-- `readx` adds heads, asks for them, drops some again, and may send what is dirty. -/
theorem Cacher.readx_refines {c c'} {oset} {rd} {onfinish external} {ret : ℤ} {bl} (hc : c.Ok)
    (hrun : c.readx oset rd onfinish external = .ok (c', ret, bl)) : Steps Label.Reads c c' := by
  obtain ⟨o, hloop, hrun⟩ := bind_eq_ok.mp hrun
  have hread := Reading.readLoop_refines hc hloop
  cases o with
  | done c1 ret1 bl1 =>
    cases hrun
    exact hread
  | more rs =>
    obtain ⟨⟨ret1, bl1⟩, -, hrun⟩ := bind_eq_ok.mp hrun
    cases hrun
    exact hread

end CephDokan.ObjectCacher
